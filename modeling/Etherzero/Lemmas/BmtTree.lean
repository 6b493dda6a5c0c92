import Mathlib
import Etherzero.Swarm.BmtTree

/-!
# The invariant of the goroutines' tree

The hashing of a chunk whose sections run from 0 to `m` starts one goroutine for each of them, at its leaf's parent
with its section's hash. Every node with data under it gets its two halves once each. A goroutine that carries the
hash of a child writes it into its half and toggles; the final goroutine, on its way from the last section, writes
the zero hash into the right half of each node with no data on its right.

The invariant is stated over which nodes a goroutine still carries and where the final goroutine still is. From these
alone a node has had each of its halves written (`halfIn`), and both (`Done`): a half is
written when no goroutine carries the child and the child has both its halves. Each node's toggle state has gone up
once for each half written, and each half written holds the hash the node's child should have. A goroutine that
carries a hash carries the right one, for a node that has both its halves, and no other goroutine carries that node.
-/

namespace Etherzero.Bmt

open BinTree

/-! ## What a goroutine brings -/

/-- The node a goroutine is at, `none` past the root. -/
def Walker.pos : Walker → Option Pos
  | .node n _ _ => n
  | .final n _ _ _ => n

/-- Whether the goroutine comes from the left half. -/
def Walker.fromLeft : Walker → Bool
  | .node _ b _ => b
  | .final _ b _ _ => b

/-- Whether it runs `writeFinalNode`. -/
def Walker.isFinal : Walker → Bool
  | .node .. => false
  | .final .. => true

/-- The hash it carries, `none` for nil. -/
def Walker.hash : Walker → Option (List UInt8)
  | .node _ _ s => some s
  | .final _ _ s _ => s

/-- The node whose hash it brings: the child it comes from, and the root past the root. -/
def Walker.src (d : Nat) (w : Walker) : Pos := w.pos.elim ⟨d - 1, 0⟩ fun x => x.child w.fromLeft

section Accessors

variable (n : Option Pos) (b : Bool) (level : Nat)

@[simp] theorem Walker.pos_node (s : List UInt8) : (Walker.node n b s).pos = n := rfl

@[simp] theorem Walker.pos_final (s : Option (List UInt8)) : (Walker.final n b s level).pos = n := rfl

@[simp] theorem Walker.fromLeft_node (s : List UInt8) : (Walker.node n b s).fromLeft = b := rfl

@[simp] theorem Walker.fromLeft_final (s : Option (List UInt8)) : (Walker.final n b s level).fromLeft = b := rfl

@[simp] theorem Walker.isFinal_node (s : List UInt8) : (Walker.node n b s).isFinal = false := rfl

@[simp] theorem Walker.isFinal_final (s : Option (List UInt8)) : (Walker.final n b s level).isFinal = true := rfl

@[simp] theorem Walker.hash_node (s : List UInt8) : (Walker.node n b s).hash = some s := rfl

@[simp] theorem Walker.hash_final (s : Option (List UInt8)) : (Walker.final n b s level).hash = s := rfl

end Accessors

@[simp]
theorem Walker.src_node (d : Nat) (n : Option Pos) (b : Bool) (s : List UInt8) :
    (Walker.node n b s).src d = n.elim ⟨d - 1, 0⟩ (fun x => x.child b) := rfl

@[simp]
theorem Walker.src_final (d : Nat) (n : Option Pos) (b : Bool) (s : Option (List UInt8)) (level : Nat) :
    (Walker.final n b s level).src d = n.elim ⟨d - 1, 0⟩ (fun x => x.child b) := rfl

/-- The goroutine carries the hash of `q`. -/
def Walker.Carries (d : Nat) (q : Pos) (w : Walker) : Bool := w.hash.isSome && w.src d == q

/-- The level `writeFinalNode` counts: the height of the node it is at, and the depth past the root. -/
def levelOf (d : Nat) (n : Option Pos) : Nat := n.elim d Pos.h

/-- Some goroutine carries the hash of `q`. -/
def carried (d : Nat) (ws : List Walker) (q : Pos) : Bool := ws.any (Walker.Carries d q)

/-- The final goroutine has not left the subtree of `q`. -/
def finalBelow (d : Nat) (ws : List Walker) (q : Pos) : Bool := ws.any fun w => w.isFinal && decide ((w.src d).Below q)

@[simp] theorem carried_nil (d : Nat) (q : Pos) : carried d [] q = false := rfl

@[simp]
theorem carried_cons (d : Nat) (w : Walker) (ws : List Walker) (q : Pos) :
    carried d (w :: ws) q = (w.Carries d q || carried d ws q) := List.any_cons

@[simp]
theorem carried_append (d : Nat) (l₁ l₂ : List Walker) (q : Pos) :
    carried d (l₁ ++ l₂) q = (carried d l₁ q || carried d l₂ q) := List.any_append

@[simp] theorem finalBelow_nil (d : Nat) (q : Pos) : finalBelow d [] q = false := rfl

@[simp]
theorem finalBelow_cons (d : Nat) (w : Walker) (ws : List Walker) (q : Pos) :
    finalBelow d (w :: ws) q = (w.isFinal && decide ((w.src d).Below q) || finalBelow d ws q) := List.any_cons

@[simp]
theorem finalBelow_append (d : Nat) (l₁ l₂ : List Walker) (q : Pos) :
    finalBelow d (l₁ ++ l₂) q = (finalBelow d l₁ q || finalBelow d l₂ q) := List.any_append

theorem carried_perm (d : Nat) {ws ws' : List Walker} (h : ws.Perm ws') : carried d ws = carried d ws' :=
  funext fun _ => h.any_eq

theorem finalBelow_perm (d : Nat) {ws ws' : List Walker} (h : ws.Perm ws') : finalBelow d ws = finalBelow d ws' :=
  funext fun _ => h.any_eq

/-- When at most one goroutine carries `q`, none but `w` does. -/
theorem carried_rest {d : Nat} {w : Walker} {rest : List Walker} {q : Pos}
    (hu : (w :: rest).countP (Walker.Carries d q) ≤ 1) (hw : w.Carries d q = true) : carried d rest q = false := by
  rw [List.countP_cons_of_pos hw] at hu
  exact List.any_eq_false.mpr (List.countP_eq_zero.mp (by omega))

/-- When at most one goroutine is final and `w` is, no other is. -/
theorem isFinal_rest {w : Walker} {rest : List Walker} (ho : (w :: rest).countP Walker.isFinal ≤ 1)
    (hw : w.isFinal = true) : ∀ w' ∈ rest, w'.isFinal = false := by
  rw [List.countP_cons_of_pos hw] at ho
  intro w' hw'
  simpa using List.countP_eq_zero.mp (by omega) w' hw'

theorem finalBelow_rest {d : Nat} {w : Walker} {rest : List Walker} (ho : (w :: rest).countP Walker.isFinal ≤ 1)
    (hw : w.isFinal = true) (q : Pos) : finalBelow d rest q = false :=
  List.any_eq_false.mpr fun w' hw' => by simp [isFinal_rest ho hw w' hw']

@[simp] theorem Walker.src_of_pos (d : Nat) {w : Walker} {x : Pos} (h : w.pos = some x) :
    w.src d = x.child w.fromLeft := by
  simp [Walker.src, h]

/-- A goroutine that goes on from `x` to its parent, or past the root, from the side of `x` brings `x`. -/
theorem src_parentOf {d : Nat} {x : Pos} (hx : x.h < d) (hroot : x.h + 1 = d → x.j = 0) :
    (parentOf d x).elim ⟨d - 1, 0⟩ (fun p => p.child x.isLeft) = x := by
  obtain ⟨h, j⟩ := x
  simp only at hx hroot
  unfold parentOf
  split
  · simp
  · rename_i hlt
    simp only [Option.elim, Pos.mk.injEq] at hlt ⊢
    omega

/-! ## Halves -/

/-- The half of a node on one side. -/
def Node.half (n : Node) (isLeft : Bool) : List UInt8 := if isLeft then n.left else n.right

/-- The node with its half on one side written. -/
def Node.setHalf (n : Node) (isLeft : Bool) (s : List UInt8) : Node :=
  if isLeft then { n with left := s } else { n with right := s }

@[simp] theorem Node.half_true (n : Node) : n.half true = n.left := rfl

@[simp] theorem Node.half_false (n : Node) : n.half false = n.right := rfl

@[simp]
theorem Node.half_setHalf (n : Node) (b : Bool) (s : List UInt8) : (n.setHalf b s).half b = s := by
  cases b <;> rfl

@[simp]
theorem Node.half_setHalf_not (n : Node) (b : Bool) (s : List UInt8) : (n.setHalf b s).half (!b) = n.half (!b) := by
  cases b <;> rfl

@[simp]
theorem Node.setHalf_state (n : Node) (b : Bool) (s : List UInt8) : (n.setHalf b s).state = n.state := by
  cases b <;> rfl

@[simp] theorem Node.toggle_state (n : Node) : n.toggle.1.state = n.state + 1 := rfl

@[simp] theorem Node.toggle_half (n : Node) (b : Bool) : n.toggle.1.half b = n.half b := by cases b <;> rfl

/-- The writes of `writeFinalNode` that toggle: a hash from the right, or nil from the left with the zero hash on the
right. -/
theorem finalWrite_false_some (zerohashes : Nat → List UInt8) (nd : Node) (v : List UInt8) (level : Nat) :
    finalWrite zerohashes nd false (some v) level = (nd.setHalf false v).toggle := rfl

theorem finalWrite_true_none (zerohashes : Nat → List UInt8) (nd : Node) (level : Nat) :
    finalWrite zerohashes nd true none level = (nd.setHalf false (zerohashes level)).toggle := rfl

/-- A pass of `writeNode` at a node: the half written and the node toggled, and the thread goes on unless it arrived
first. -/
theorem writeNode_some (d : Nat) (H : List UInt8 → List UInt8) (nodes : Pos → Node) (x : Pos) (b : Bool)
    (s : List UInt8) :
    writeNode d H nodes (some x) b s =
      (Function.update nodes x ((nodes x).setHalf b s).toggle.1,
        if ((nodes x).setHalf b s).toggle.2 then none
        else some (.node (parentOf d x) x.isLeft
          (H (((nodes x).setHalf b s).toggle.1.left ++ ((nodes x).setHalf b s).toggle.1.right))), none) := by
  show (if ((nodes x).setHalf b s).toggle.2 then _ else _) = _
  split <;> rfl

/-! ## The hashing of one chunk -/

/-- The hashing of a chunk on one tree: its depth `d`, its last section `m`, the base hash, the zero hash of each
level, the hash of each section, and the nodes as the tree was handed out, with even toggle states. -/
structure Hashing where
  d : Nat
  m : Nat
  H : List UInt8 → List UInt8
  zh : Nat → List UInt8
  leafHash : Nat → List UInt8
  init : Pos → Node
  depth_pos : 0 < d
  last_lt : m < 2 ^ (d - 1)
  zh_succ : ∀ i, zh (i + 1) = H (zh i ++ zh i)
  init_even : ∀ q, (init q).state % 2 = 0

namespace Hashing

variable (S : Hashing)

/-- The root. -/
def root : Pos := ⟨S.d - 1, 0⟩

/-- The hash each node is to get: `leafHash` on the leaves up to `m`, the hash of a zero section on the leaves past
it, and above them the hash of the two halves. -/
def expected (q : Pos) : List UInt8 :=
  build (fun i => if i ≤ S.m then S.leafHash i else S.zh 1) (fun a b => S.H (a ++ b)) q.h q.j

/-- A node above the leaves is to get the hash of its two halves. -/
theorem expected_of_pos {x : Pos} (hx : 0 < x.h) :
    S.expected x = S.H (S.expected (x.child true) ++ S.expected (x.child false)) := by
  obtain ⟨h, j⟩ := x
  obtain ⟨h, rfl⟩ : ∃ h', h = h' + 1 := ⟨h - 1, by simp only at hx; omega⟩
  rfl

/-- A node with no section under it is to get the zero hash of the level above it. -/
theorem expected_of_lt {q : Pos} (hq : S.m < q.first) : S.expected q = S.zh (q.h + 1) :=
  build_of_leaves_eq _ _ (fun h => S.zh (h + 1)) (fun h => S.zh_succ (h + 1)) q.h q.j
    fun i hi => if_neg (by simp only [Pos.first] at hq; omega)

/-- The tree has data under `q`: its first leaf is a section of the chunk. -/
def HasData (q : Pos) : Prop := q.first ≤ S.m

instance instDecidableHasData (q : Pos) : Decidable (S.HasData q) := inferInstanceAs (Decidable (q.first ≤ S.m))

/-- Whether the node `j` of height `h` has both its halves, when `car` says which nodes a goroutine still carries
and `fb` under which nodes the final goroutine still is. A half is written when no goroutine carries the child and
the child has both its halves; the right half of a node with no data on its right is written when the final
goroutine leaves the left child. -/
def Done (car fb : Pos → Bool) : Nat → Nat → Bool
  | 0, _ => true
  | h + 1, j =>
    (!car ⟨h, 2 * j⟩ && Done car fb h (2 * j)) &&
      (if (⟨h, 2 * j + 1⟩ : Pos).first ≤ S.m then !car ⟨h, 2 * j + 1⟩ && Done car fb h (2 * j + 1)
        else !fb ⟨h, 2 * j⟩)

/-- The hash of `q` has gone up to its parent: no goroutine carries it, and `q` has both its halves. -/
def Delivered (car fb : Pos → Bool) (q : Pos) : Bool := !car q && S.Done car fb q.h q.j

/-- The half of `x` on one side is written: the left half when the left child has gone up; the right half when the
right child has gone up, or, with no data on the right, when the final goroutine has left the left child. -/
def halfIn (car fb : Pos → Bool) (x : Pos) (b : Bool) : Bool :=
  if b then S.Delivered car fb (x.child true)
  else if S.HasData (x.child false) then S.Delivered car fb (x.child false) else !fb (x.child true)

theorem done_succ (car fb : Pos → Bool) (h j : Nat) :
    S.Done car fb (h + 1) j = (S.halfIn car fb ⟨h + 1, j⟩ true && S.halfIn car fb ⟨h + 1, j⟩ false) := by
  simp only [Done, halfIn, Delivered, HasData, Pos.child, if_true, Bool.false_eq_true, if_false,
    Nat.add_sub_cancel]

/-- A node above the leaves has both halves when each of its halves is written. -/
theorem done_of_pos (car fb : Pos → Bool) {x : Pos} (hx : 0 < x.h) :
    S.Done car fb x.h x.j = (S.halfIn car fb x true && S.halfIn car fb x false) := by
  obtain ⟨h, j⟩ := x
  obtain ⟨h, rfl⟩ : ∃ h', h = h' + 1 := ⟨h - 1, by simp only at hx; omega⟩
  exact S.done_succ car fb h j

/-- A half with data under it is written when its child has gone up. -/
theorem halfIn_of_hasData (car fb : Pos → Bool) {x : Pos} {b : Bool} (hd : S.HasData (x.child b)) :
    S.halfIn car fb x b = S.Delivered car fb (x.child b) := by
  cases b <;> simp [halfIn, hd]

/-- Where `car` and `fb` change only at `x` and its child `c`, and whether the hash of `x` has gone up does not
change, no node but `x` changes whether it has both halves. The induction is on the height: a node other than `x`
reads its children, which are not `c`, and `x` only through whether it has gone up. -/
theorem done_frame {car fb car' fb' : Pos → Bool} {x : Pos} (hx : 0 < x.h) {b : Bool}
    (hcar : ∀ q, q ≠ x.child b → q ≠ x → car' q = car q) (hfb : ∀ q, q ≠ x.child b → fb' q = fb q)
    (hdel : S.Delivered car' fb' x = S.Delivered car fb x) :
    ∀ h j, (⟨h, j⟩ : Pos) ≠ x → S.Done car' fb' h j = S.Done car fb h j := by
  intro h
  induction h with
  | zero => intro j _; rfl
  | succ h ih =>
    intro j hne
    -- the children of a node other than `x` are not `x.child b`, whose parent is `x`
    have hchild : ∀ c : Pos, c.parent = ⟨h + 1, j⟩ → c ≠ x.child b := by
      rintro c hc rfl
      exact hne (hc.symm.trans (Pos.child_parent hx b))
    have hdel' : ∀ c : Pos, c.parent = ⟨h + 1, j⟩ → c.h = h →
        S.Delivered car' fb' c = S.Delivered car fb c := by
      intro c hc hch
      by_cases hcx : c = x
      · rw [hcx] at hc ⊢
        exact hdel
      · have hd := ih c.j (by rw [← hch]; exact hcx)
        simp only [Delivered, hch, hd, hcar c (hchild c hc) hcx]
    have hl := hdel' ⟨h, 2 * j⟩ (by simp [Pos.parent]) rfl
    have hr := hdel' ⟨h, 2 * j + 1⟩ (by simp [Pos.parent]; omega) rfl
    have hfl := hfb ⟨h, 2 * j⟩ (hchild _ (by simp [Pos.parent]))
    simp only [Delivered] at hl hr
    simp only [Done, hl, hr, hfl]

/-- Where `car` and `fb` change only at height `h` and above, no node of height `h` or below changes whether it
has both halves. -/
theorem done_frame_height {car fb car' fb' : Pos → Bool} {h : Nat}
    (hagree : ∀ q : Pos, q.h < h → car' q = car q ∧ fb' q = fb q) :
    ∀ h', h' ≤ h → ∀ j, S.Done car' fb' h' j = S.Done car fb h' j := by
  intro h'
  induction h' with
  | zero => intro _ _; rfl
  | succ h' ih =>
    intro hle j
    obtain ⟨hl, hlf⟩ := hagree ⟨h', 2 * j⟩ (by simp only; omega)
    obtain ⟨hr, -⟩ := hagree ⟨h', 2 * j + 1⟩ (by simp only; omega)
    simp only [Done, hl, hlf, hr, ih (by omega)]

/-! ## The invariant -/

/-- A node of the tree above the leaves, with data under it. -/
def Inner (x : Pos) : Prop := 0 < x.h ∧ x.h < S.d ∧ S.HasData x

theorem hasData_of_child {x : Pos} {b : Bool} (hx : 0 < x.h) (hd : S.HasData (x.child b)) : S.HasData x := by
  cases b
  · unfold HasData at hd ⊢
    rw [Pos.first_child_false x hx] at hd
    exact le_trans (Nat.le_add_right _ _) hd
  · rw [HasData, ← Pos.first_child_true x hx]
    exact hd

/-- The only node of the root's height with data under it is the root. -/
theorem hasData_top {x : Pos} (hd : S.HasData x) (htop : x.h + 1 = S.d) : x.j = 0 := by
  have hlt := S.last_lt
  unfold HasData Pos.first at hd
  rw [show S.d - 1 = x.h by omega] at hlt
  by_contra hj
  have : 2 ^ x.h ≤ x.j * 2 ^ x.h := Nat.le_mul_of_pos_left _ (Nat.pos_of_ne_zero hj)
  omega

/-- A goroutine that goes on from a node with data under it brings that node. -/
theorem src_up {x : Pos} (hx : x.h < S.d) (hd : S.HasData x) :
    (parentOf S.d x).elim ⟨S.d - 1, 0⟩ (fun p => p.child x.isLeft) = x :=
  src_parentOf hx (S.hasData_top hd)

theorem done_false {car fb : Pos → Bool} {x : Pos} (hx : 0 < x.h) {b : Bool} (h : S.halfIn car fb x b = false) :
    S.Done car fb x.h x.j = false := by
  rw [S.done_of_pos car fb hx]
  cases b <;> simp [h]

/-- A node above the last section has data under it. -/
theorem hasData_of_below {q : Pos} (h : (⟨0, S.m⟩ : Pos).Below q) : S.HasData q :=
  ((Pos.leaf_below_iff S.m q).mp h).1

/-- On the path from the last section, a node whose left child is above the last section has no data on its
right. -/
theorem not_hasData_right {x : Pos} (hx : 0 < x.h) (h : (⟨0, S.m⟩ : Pos).Below (x.child true)) :
    ¬ S.HasData (x.child false) := by
  have hlt := ((Pos.leaf_below_iff S.m _).mp h).2
  rw [Pos.first_child_true x hx, Pos.child_h] at hlt
  unfold HasData
  rw [Pos.first_child_false x hx]
  omega

theorem levelOf_parentOf {d : Nat} {x : Pos} (hx : x.h < d) : levelOf d (parentOf d x) = x.h + 1 := by
  unfold parentOf
  split
  · rfl
  · simp only [levelOf, Option.elim]
    omega

/-- A node with a parent in the tree is below the root's height, and its parent is the node of half its index one
level up. -/
theorem parentOf_eq_some {d : Nat} {x p : Pos} (hp : parentOf d x = some p) : p = x.parent ∧ x.h + 1 < d := by
  unfold parentOf at hp
  split at hp
  · exact ⟨(Option.some.inj hp).symm, ‹_›⟩
  · cases hp

theorem done_true {car fb : Pos → Bool} {x : Pos} (hx : 0 < x.h) {b : Bool} (h : S.halfIn car fb x b = true)
    (h' : S.halfIn car fb x (!b) = true) : S.Done car fb x.h x.j = true := by
  rw [S.done_of_pos car fb hx]
  cases b <;> simp_all

/-- What an inner node holds. Its state has gone up once for each half written, or, where there is no data on its
right, not at all with both halves written by the final goroutine; and each half written holds the hash of its
child. -/
def FieldsOK (car fb : Pos → Bool) (x : Pos) (n : Node) : Prop :=
  (n.state = (S.init x).state + (S.halfIn car fb x true).toNat + (S.halfIn car fb x false).toNat ∨
    ¬ S.HasData (x.child false) ∧ n.state = (S.init x).state ∧
      S.halfIn car fb x true = true ∧ S.halfIn car fb x false = true) ∧
  ∀ b, S.halfIn car fb x b = true → n.half b = S.expected (x.child b)

/-- A half written with its child's hash, and the node toggled. The node keeps its invariant when that half goes from
not written to written and the other half stays as it was. The toggle reports the first thread exactly when the
other half is not written; and when it is, the hash of the two halves is the node's. -/
theorem fieldsOK_toggle {car fb car' fb' : Pos → Bool} {x : Pos} {n : Node} {b : Bool} {v : List UInt8}
    (hx : 0 < x.h) (hok : S.FieldsOK car fb x n) (hb : S.halfIn car fb x b = false)
    (hb' : S.halfIn car' fb' x b = true) (hother : S.halfIn car' fb' x (!b) = S.halfIn car fb x (!b))
    (hv : v = S.expected (x.child b)) :
    S.FieldsOK car' fb' x (n.setHalf b v).toggle.1 ∧ (n.setHalf b v).toggle.2 = !S.halfIn car fb x (!b) ∧
      (S.halfIn car fb x (!b) = true →
        S.H ((n.setHalf b v).toggle.1.left ++ (n.setHalf b v).toggle.1.right) = S.expected x) := by
  obtain ⟨hst, hfields⟩ := hok
  -- the half on side `b` is not written, so the node is not one the final goroutine filled at once
  have hst : n.state = (S.init x).state + (S.halfIn car fb x (!b)).toNat := by
    rcases hst with hst | ⟨-, -, ht, hf⟩
    · cases b <;> simp_all
    · cases b <;> simp_all
  have heven := S.init_even x
  refine ⟨⟨.inl ?_, fun b' hb'' => ?_⟩, ?_, fun ho => ?_⟩
  · have hsum : (S.halfIn car' fb' x true).toNat + (S.halfIn car' fb' x false).toNat =
        (S.halfIn car fb x (!b)).toNat + 1 := by
      cases b
      · simp only [Bool.not_false] at hother ⊢
        rw [hb', hother, Bool.toNat_true, Nat.add_comm]
      · simp only [Bool.not_true] at hother ⊢
        rw [hb', hother, Bool.toNat_true, Nat.add_comm]
    rw [Node.toggle_state, Node.setHalf_state, hst]
    omega
  · rcases Bool.eq_false_or_eq_true (b' == b) with hbb | hbb
    · rw [beq_iff_eq.mp hbb]
      simpa using hv
    · have hbb' : b' = !b := by cases b <;> cases b' <;> simp_all
      rw [hbb'] at hb'' ⊢
      rw [Node.toggle_half, Node.half_setHalf_not]
      exact hfields (!b) (hother ▸ hb'')
  · simp only [Node.toggle, Node.setHalf_state, hst]
    cases S.halfIn car fb x (!b) <;> simp <;> omega
  · rw [S.expected_of_pos hx, ← Node.half_true, ← Node.half_false, Node.toggle_half, Node.toggle_half]
    cases b
    · have hl : (n.setHalf false v).half true = n.half true := rfl
      rw [hl, Node.half_setHalf, hv, hfields true ho]
    · have hr : (n.setHalf true v).half false = n.half false := rfl
      rw [hr, Node.half_setHalf, hv, hfields false ho]

/-- What a node holds: an inner node its fields, and any other node what it held when the tree was handed out. -/
def NodeOK (car fb : Pos → Bool) (nodes : Pos → Node) (x : Pos) : Prop :=
  (S.Inner x → S.FieldsOK car fb x (nodes x)) ∧ (¬ S.Inner x → nodes x = S.init x)

/-- What a goroutine knows. It is at an inner node, or past the root; it brings a node with data under it; and a
hash it carries is that node's, which has both its halves. The final goroutine brings a node above the last
section, and its level is the height it is at. -/
def WalkerOK (car fb : Pos → Bool) (w : Walker) : Prop :=
  (∀ x, w.pos = some x → 0 < x.h ∧ x.h < S.d) ∧ S.HasData (w.src S.d) ∧
    (∀ v, w.hash = some v → v = S.expected (w.src S.d) ∧ S.Done car fb (w.src S.d).h (w.src S.d).j = true) ∧
    (∀ n b s level, w = .final n b s level → (⟨0, S.m⟩ : Pos).Below (w.src S.d) ∧ level = levelOf S.d n)

/-- The invariant of the runs of the chunk's goroutines on the tree. At most one goroutine carries each node and at
most one is final. The result channel is empty while the root has not gone up, and then holds the root's hash. -/
structure Inv (r : Run) : Prop where
  nodes : ∀ x, S.NodeOK (carried S.d r.threads) (finalBelow S.d r.threads) r.mem x
  walkers : ∀ w ∈ r.threads, S.WalkerOK (carried S.d r.threads) (finalBelow S.d r.threads) w
  unique : ∀ q, r.threads.countP (Walker.Carries S.d q) ≤ 1
  one_final : r.threads.countP Walker.isFinal ≤ 1
  out : r.out = [] ∧ S.Delivered (carried S.d r.threads) (finalBelow S.d r.threads) S.root = false ∨
    r.out = [S.expected S.root] ∧ S.Delivered (carried S.d r.threads) (finalBelow S.d r.threads) S.root = true

/-- The invariant does not depend on the order of the goroutines. -/
theorem Inv.perm {mem : Pos → Node} {ws ws' : List Walker} {out : List (List UInt8)}
    (h : S.Inv ⟨mem, ws, out⟩) (hp : ws.Perm ws') : S.Inv ⟨mem, ws', out⟩ := by
  have hc := carried_perm S.d hp
  have hf := finalBelow_perm S.d hp
  obtain ⟨hn, hw, hu, ho, hout⟩ := h
  simp only at hn hw hu ho hout
  refine ⟨fun x => ?_, fun w hw' => ?_, fun q => ?_, ?_, ?_⟩
  · simpa only [← hc, ← hf] using hn x
  · simpa only [← hc, ← hf] using hw w (hp.mem_iff.mpr hw')
  · simpa only [← hp.countP_eq] using hu q
  · simpa only [← hp.countP_eq] using ho
  · simpa only [← hc, ← hf] using hout

/-! ## One pass at a node

A goroutine `w` at the node `x`, coming from the child `x.child w.fromLeft`, takes its pass and goes on to the
parent as `o`, which brings `x`, or ends; `l` are the other goroutines. Only the child and `x` change whether a goroutine carries them, and only
the child whether the final goroutine is under it. -/

section Pass

variable {w : Walker} {l : List Walker} {x : Pos} {o : Option Walker}

theorem carried_after (hpos : w.pos = some x) (hc : ∀ c ∈ o, c.src S.d = x) :
    ∀ q, q ≠ x.child w.fromLeft → q ≠ x → carried S.d (o.toList ++ l) q = carried S.d (w :: l) q := by
  intro q hq hqx
  have hw : w.Carries S.d q = false := by
    simp [Walker.Carries, Walker.src_of_pos _ hpos, Ne.symm hq]
  have hcq : carried S.d o.toList q = false := by
    cases o with
    | none => rfl
    | some c => simp [Walker.Carries, hc c rfl, Ne.symm hqx]
  simp [hw, hcq]

theorem finalBelow_after (hpos : w.pos = some x) (hx : 0 < x.h)
    (hc : ∀ c ∈ o, c.src S.d = x ∧ c.isFinal = w.isFinal) (hfin : w.isFinal = true → o.isSome = true) :
    ∀ q, q ≠ x.child w.fromLeft →
      finalBelow S.d (o.toList ++ l) q = finalBelow S.d (w :: l) q := by
  intro q hq
  -- going up from the child, the final goroutine is under the same nodes but the child
  have hbelow : (x.child w.fromLeft).Below q ↔ x.Below q := by
    rw [Pos.below_iff_eq_or_parent, Pos.child_parent hx]
    exact or_iff_right (Ne.symm hq)
  rw [finalBelow_append, finalBelow_cons, Walker.src_of_pos _ hpos]
  congr 1
  cases hf : w.isFinal
  · cases o with
    | none => rfl
    | some c => simp [(hc c rfl).2, hf]
  · obtain ⟨c, rfl⟩ := Option.isSome_iff_exists.mp (hfin hf)
    simp [(hc c rfl).1, (hc c rfl).2, hf, hbelow]

/-- The goroutine that goes on brings `x`, so the final goroutine is no longer under the child. -/
theorem finalBelow_after_src (hx : 0 < x.h) (hc : ∀ c ∈ o, c.src S.d = x) (b : Bool) :
    finalBelow S.d (o.toList ++ l) (x.child b) = finalBelow S.d l (x.child b) := by
  cases o with
  | none => simp
  | some c => simp [(hc c rfl), Pos.not_below_child x b hx]

theorem carried_after_src (hc : ∀ c ∈ o, c.src S.d = x) (hx : 0 < x.h) (b : Bool) :
    carried S.d (o.toList ++ l) (x.child b) = carried S.d l (x.child b) := by
  cases o with
  | none => simp
  | some c =>
    have hne : x ≠ x.child b := fun h => Pos.not_below_child x b hx (h ▸ Pos.below_refl x)
    simp [Walker.Carries, hc c rfl, hne]

/-- Below the height of the child, no node changes whether it has both halves. -/
theorem done_after_below (hpos : w.pos = some x) (hx : 0 < x.h)
    (hc : ∀ c ∈ o, c.src S.d = x ∧ c.isFinal = w.isFinal) (hfin : w.isFinal = true → o.isSome = true) :
    ∀ h', h' ≤ x.h - 1 → ∀ j, S.Done (carried S.d (o.toList ++ l)) (finalBelow S.d (o.toList ++ l)) h' j =
      S.Done (carried S.d (w :: l)) (finalBelow S.d (w :: l)) h' j := by
  refine S.done_frame_height fun q hq => ⟨?_, ?_⟩
  · refine S.carried_after hpos (fun c hc' => (hc c hc').1) q (fun h => ?_) (fun h => ?_)
    · rw [h, Pos.child_h] at hq; omega
    · rw [h] at hq; omega
  · refine S.finalBelow_after hpos hx hc hfin q (fun h => ?_)
    rw [h, Pos.child_h] at hq; omega

/-- The goroutine that goes on is final exactly when `w` was, so the number of final goroutines stays. -/
theorem countP_isFinal_after (hc : ∀ c ∈ o, c.isFinal = w.isFinal) (hfin : w.isFinal = true → o.isSome = true) :
    (o.toList ++ l).countP Walker.isFinal = (w :: l).countP Walker.isFinal := by
  rw [List.countP_append, List.countP_cons]
  cases hf : w.isFinal
  · have hzero : o.toList.countP Walker.isFinal = 0 :=
      List.countP_eq_zero.mpr fun c hc' => by simp [hc c (Option.mem_toList.mp hc'), hf]
    simp [hzero]
  · obtain ⟨c, rfl⟩ := Option.isSome_iff_exists.mp (hfin hf)
    simp [hc c rfl, hf, Nat.add_comm]

/-- The goroutine that goes on from `x` carries no node but `x`: another node keeps at most one goroutine that
carries it. -/
theorem countP_carries_after_ne (hc : ∀ c ∈ o, c.src S.d = x) {q : Pos} (hqx : q ≠ x)
    (hu : (w :: l).countP (Walker.Carries S.d q) ≤ 1) : (o.toList ++ l).countP (Walker.Carries S.d q) ≤ 1 := by
  have hzero : o.toList.countP (Walker.Carries S.d q) = 0 :=
    List.countP_eq_zero.mpr fun c hc' => by simp [Walker.Carries, hc c (Option.mem_toList.mp hc'), Ne.symm hqx]
  rw [List.countP_append, hzero, Nat.zero_add]
  exact le_trans ((List.sublist_cons_self w l).countP_le) hu

/-- A goroutine that goes on with a hash for `x` is the only one that carries `x`, when every other goroutine that
carries `x` has left it with both halves and the one going on has not. -/
theorem countP_carries_after_self {car fb : Pos → Bool}
    (hdone : ∀ r ∈ l, r.Carries S.d x = true → S.Done car fb x.h x.j = true)
    (hnotdone : ∀ c ∈ o, c.hash.isSome = true → S.Done car fb x.h x.j = false)
    (hu : (w :: l).countP (Walker.Carries S.d x) ≤ 1) : (o.toList ++ l).countP (Walker.Carries S.d x) ≤ 1 := by
  rw [List.countP_append]
  cases o with
  | none => simpa using le_trans ((List.sublist_cons_self w l).countP_le) hu
  | some c =>
    by_cases hch : c.hash.isSome = true
    · have hzero : l.countP (Walker.Carries S.d x) = 0 := by
        refine List.countP_eq_zero.mpr fun r hr hcr => ?_
        have hd := hdone r hr hcr
        rw [hnotdone c rfl hch] at hd
        exact Bool.false_ne_true hd
      rw [hzero]
      simp only [Option.toList_some, List.countP_cons, List.countP_nil]
      split <;> omega
    · have hnc : c.Carries S.d x = false := by simp [Walker.Carries, hch]
      simpa [hnc] using le_trans ((List.sublist_cons_self w l).countP_le) hu

/-- One pass at `x` keeps the invariant when it leaves every node but `x` as it was, does not change whether `x` has
gone up, keeps what `x` holds and what the goroutine that goes on knows, and does not undo `x`. A goroutine that goes
on with a hash leaves a node that had not both its halves, so no other goroutine carries it. -/
theorem Inv.step_at {nodes nodes' : Pos → Node} {out : List (List UInt8)}
    (hinv : S.Inv ⟨nodes, w :: l, out⟩) (hpos : w.pos = some x)
    (hc : ∀ c ∈ o, c.src S.d = x ∧ c.isFinal = w.isFinal) (hfin : w.isFinal = true → o.isSome = true)
    (hnodes : ∀ y, y ≠ x → nodes' y = nodes y)
    (hdel : S.Delivered (carried S.d (o.toList ++ l)) (finalBelow S.d (o.toList ++ l)) x =
      S.Delivered (carried S.d (w :: l)) (finalBelow S.d (w :: l)) x)
    (hnode : S.NodeOK (carried S.d (o.toList ++ l)) (finalBelow S.d (o.toList ++ l)) nodes' x)
    (hcontOK : ∀ c ∈ o, S.WalkerOK (carried S.d (o.toList ++ l)) (finalBelow S.d (o.toList ++ l)) c)
    (hdone : S.Done (carried S.d (w :: l)) (finalBelow S.d (w :: l)) x.h x.j = true →
      S.Done (carried S.d (o.toList ++ l)) (finalBelow S.d (o.toList ++ l)) x.h x.j = true)
    (hnotdone : ∀ c ∈ o, c.hash.isSome = true →
      S.Done (carried S.d (w :: l)) (finalBelow S.d (w :: l)) x.h x.j = false) :
    S.Inv ⟨nodes', o.toList ++ l, out⟩ := by
  obtain ⟨hn, hw, hu, ho, hout⟩ := hinv
  dsimp only at hn hw hu ho hout
  obtain ⟨hx, -, -, -⟩ := hw w List.mem_cons_self
  obtain ⟨hx, hxd⟩ := hx x hpos
  have hcar := S.carried_after hpos (l := l) (fun c hc' => (hc c hc').1)
  have hfb := S.finalBelow_after hpos hx (l := l) hc hfin
  have hframe := S.done_frame hx hcar hfb hdel
  have hdelq : ∀ q, q ≠ x.child w.fromLeft →
      S.Delivered (carried S.d (o.toList ++ l)) (finalBelow S.d (o.toList ++ l)) q =
        S.Delivered (carried S.d (w :: l)) (finalBelow S.d (w :: l)) q := by
    intro q hq
    by_cases hqx : q = x
    · rw [hqx]
      exact hdel
    · simp only [Delivered, hcar q hq hqx, hframe q.h q.j hqx]
  -- the halves of a node other than `x` read children that are not the child `w` comes from
  have hhalf : ∀ y : Pos, 0 < y.h → y ≠ x → ∀ b',
      S.halfIn (carried S.d (o.toList ++ l)) (finalBelow S.d (o.toList ++ l)) y b' =
        S.halfIn (carried S.d (w :: l)) (finalBelow S.d (w :: l)) y b' := by
    intro y hy hyx b'
    have hne : ∀ b'', y.child b'' ≠ x.child w.fromLeft := fun b'' h =>
      hyx (by rw [← Pos.child_parent hy b'', h, Pos.child_parent hx])
    cases b' <;> simp only [halfIn, hdelq _ (hne _), hfb _ (hne true)]
  refine ⟨fun y => ?_, fun w' hw' => ?_, fun q => ?_, ?_, ?_⟩ <;> dsimp only
  · by_cases hyx : y = x
    · rw [hyx]
      exact hnode
    · obtain ⟨h1, h2⟩ := hn y
      rw [NodeOK, hnodes y hyx]
      refine ⟨fun hi => ?_, h2⟩
      have hf := h1 hi
      simp only [FieldsOK, hhalf y hi.1 hyx] at hf ⊢
      exact hf
  · rcases List.mem_append.mp hw' with hc' | hr
    · exact hcontOK w' (Option.mem_toList.mp hc')
    · obtain ⟨hp, hdata, hhash, hfinal⟩ := hw w' (List.mem_cons_of_mem _ hr)
      refine ⟨hp, hdata, fun v hv => ?_, hfinal⟩
      obtain ⟨hv', hd⟩ := hhash v hv
      refine ⟨hv', ?_⟩
      by_cases hsx : w'.src S.d = x
      · rw [hsx] at hd ⊢
        exact hdone hd
      · rw [hframe (w'.src S.d).h (w'.src S.d).j hsx]
        exact hd
  · by_cases hqx : q = x
    · -- a goroutine that goes on with a hash for `x` is the only one: no other had `x` with both halves
      rw [hqx]
      refine S.countP_carries_after_self (fun r hr hcr => ?_) hnotdone (hu x)
      simp only [Walker.Carries, Bool.and_eq_true, beq_iff_eq] at hcr
      obtain ⟨v, hv⟩ := Option.isSome_iff_exists.mp hcr.1
      have hd := ((hw r (List.mem_cons_of_mem _ hr)).2.2.1 v hv).2
      rwa [hcr.2] at hd
    · exact S.countP_carries_after_ne (fun c hc' => (hc c hc').1) hqx (hu q)
  · rw [countP_isFinal_after (fun c hc' => (hc c hc').2) hfin]
    exact ho
  · -- the root is not the child `w` comes from, which is below `x`
    have hroot : S.root ≠ x.child w.fromLeft := by
      intro h
      have := congrArg Pos.h h
      simp only [root, Pos.child_h] at this
      omega
    simpa only [hdelq S.root hroot] using hout

/-- The goroutine that goes on from an inner node `x` to its parent, from the side of `x`, knows what a goroutine
knows when the hash it carries is that of `x`, with both halves, and, if it is final, the final goroutine came from
above the last section and counts its level. -/
theorem walkerOK_up {car fb : Pos → Bool} {c : Walker} (hx : S.Inner x) (hpos : c.pos = parentOf S.d x)
    (hleft : c.fromLeft = x.isLeft)
    (hhash : ∀ v, c.hash = some v → v = S.expected x ∧ S.Done car fb x.h x.j = true)
    (hfinal : ∀ n b s level, c = .final n b s level → (⟨0, S.m⟩ : Pos).Below x ∧ level = levelOf S.d n) :
    S.WalkerOK car fb c := by
  obtain ⟨hx0, hxd, hdata⟩ := hx
  have hsrc : c.src S.d = x := by
    rw [Walker.src, hpos, hleft]
    exact S.src_up hxd hdata
  refine ⟨fun p hp => ?_, hsrc ▸ hdata, hsrc ▸ hhash, hsrc ▸ hfinal⟩
  rw [hpos] at hp
  obtain ⟨rfl, hlt⟩ := parentOf_eq_some hp
  simp only [Pos.parent_h]
  omega

/-- The other half of `x` stays as it was, unless the final goroutine leaves the left child of a node with no data on
its right. -/
theorem halfIn_after_other (hpos : w.pos = some x) (hx : 0 < x.h) (hc : ∀ c ∈ o, c.src S.d = x ∧ c.isFinal = w.isFinal)
    (hfin : w.isFinal = true → o.isSome = true)
    (hside : w.fromLeft = true → w.isFinal = true → S.HasData (x.child false)) :
    S.halfIn (carried S.d (o.toList ++ l)) (finalBelow S.d (o.toList ++ l)) x (!w.fromLeft) =
      S.halfIn (carried S.d (w :: l)) (finalBelow S.d (w :: l)) x (!w.fromLeft) := by
  have hcar := S.carried_after hpos (l := l) (fun c hc' => (hc c hc').1)
  have hdone := S.done_after_below hpos hx hc hfin (l := l)
  -- the other child has not changed whether it has gone up
  have hsib : ∀ b', b' ≠ w.fromLeft →
      S.Delivered (carried S.d (o.toList ++ l)) (finalBelow S.d (o.toList ++ l)) (x.child b') =
        S.Delivered (carried S.d (w :: l)) (finalBelow S.d (w :: l)) (x.child b') := by
    intro b' hb'
    have hne : x.child b' ≠ x.child w.fromLeft := fun h => hb' (by simpa using congrArg Pos.isLeft h)
    have hnx : x.child b' ≠ x := fun h => Pos.not_below_child x b' hx (by rw [h]; exact Pos.below_refl x)
    simp only [Delivered, hcar _ hne hnx, Pos.child_h, hdone (x.h - 1) le_rfl]
  cases hb : w.fromLeft
  · simp only [Bool.not_false, halfIn, if_true]
    exact hsib true (by simp [hb])
  · simp only [Bool.not_true, halfIn, Bool.false_eq_true, if_false]
    split
    · exact hsib false (by simp [hb])
    · rename_i hnd
      have hnf : w.isFinal = false := by
        cases hf : w.isFinal
        · rfl
        · exact absurd (hside hb hf) hnd
      have hsrc := Walker.src_of_pos S.d hpos
      rw [hb] at hsrc
      have hnc : ∀ c ∈ o, c.isFinal = false := fun c hc' => (hc c hc').2.trans hnf
      cases o with
      | none => simp [hnf]
      | some c => simp [hnf, hnc c rfl]

/-- The half that `w` brings is in after its pass, when `w` carries a hash of the child it comes from and the child
has both its halves: no other goroutine carries the child, so the child has gone up. -/
theorem halfIn_after_src (hpos : w.pos = some x) (hx : 0 < x.h)
    (hc : ∀ c ∈ o, c.src S.d = x ∧ c.isFinal = w.isFinal) (hfin : w.isFinal = true → o.isSome = true)
    (hdata : S.HasData (x.child w.fromLeft)) (hu : (w :: l).countP (Walker.Carries S.d (x.child w.fromLeft)) ≤ 1)
    (hh : w.hash.isSome = true)
    (hdone : S.Done (carried S.d (w :: l)) (finalBelow S.d (w :: l)) (x.h - 1) (x.child w.fromLeft).j = true) :
    S.halfIn (carried S.d (o.toList ++ l)) (finalBelow S.d (o.toList ++ l)) x w.fromLeft = true := by
  have hcarw : w.Carries S.d (x.child w.fromLeft) = true := by
    simp [Walker.Carries, hh, Walker.src_of_pos S.d hpos]
  rw [S.halfIn_of_hasData _ _ hdata]
  simp only [Delivered, S.carried_after_src (fun c hc' => (hc c hc').1) hx, carried_rest hu hcarw, Pos.child_h,
    S.done_after_below hpos hx hc hfin (x.h - 1) le_rfl, Bool.not_false, Bool.true_and]
  exact hdone

/-- A goroutine of `writeNode` at a node writes its half and toggles. It ends there when it arrives first, and goes
on with the node's hash when it arrives second. -/
theorem Inv.step_node {nodes : Pos → Node} {out : List (List UInt8)} {b : Bool} {s : List UInt8}
    (hinv : S.Inv ⟨nodes, .node (some x) b s :: l, out⟩) :
    S.Inv ⟨(Walker.step S.d S.H S.zh nodes (.node (some x) b s)).1,
      (Walker.step S.d S.H S.zh nodes (.node (some x) b s)).2.1.toList ++ l,
      out ++ (Walker.step S.d S.H S.zh nodes (.node (some x) b s)).2.2.toList⟩ := by
  set w : Walker := .node (some x) b s with hw
  have hpos : w.pos = some x := rfl
  obtain ⟨hxh, hdata, hhash, -⟩ := hinv.walkers w List.mem_cons_self
  have hsrc : w.src S.d = x.child b := rfl
  dsimp only at hhash
  rw [hsrc] at hdata hhash
  obtain ⟨hx, hxd⟩ := hxh x hpos
  obtain ⟨hs, hdone⟩ := hhash s rfl
  have hinner : S.Inner x := ⟨hx, hxd, S.hasData_of_child hx hdata⟩
  have hcarw : w.Carries S.d (x.child b) = true := by simp [w, Walker.Carries, Walker.hash, Walker.src, Walker.pos,
    Walker.fromLeft]
  have hb : S.halfIn (carried S.d (w :: l)) (finalBelow S.d (w :: l)) x b = false := by
    rw [S.halfIn_of_hasData _ _ hdata]
    simp [Delivered, hcarw]
  -- the node after the write and the toggle, and the goroutine that goes on
  set t := ((nodes x).setHalf b s).toggle with ht
  set o : Option Walker :=
    if t.2 then none else some (.node (parentOf S.d x) x.isLeft (S.H (t.1.left ++ t.1.right))) with hcont
  have hstep : Walker.step S.d S.H S.zh nodes w = (Function.update nodes x t.1, o, none) := writeNode_some ..
  rw [hstep, Option.toList_none, List.append_nil]
  have hc : ∀ c ∈ o, c.src S.d = x ∧ c.isFinal = w.isFinal := by
    intro c hc'
    rw [hcont] at hc'
    split at hc'
    · cases hc'
    · cases Option.mem_some_iff.mp hc'
      exact ⟨S.src_up hxd hinner.2.2, rfl⟩
  have hfin : w.isFinal = true → o.isSome = true := fun h => absurd h (by simp [w, Walker.isFinal])
  have hb' : S.halfIn (carried S.d (o.toList ++ l)) (finalBelow S.d (o.toList ++ l)) x b = true :=
    S.halfIn_after_src hpos hx hc hfin hdata (hinv.unique _) rfl hdone
  have hother := S.halfIn_after_other (l := l) hpos hx hc hfin
    (fun _ h => absurd h (by simp [w, Walker.isFinal]))
  obtain ⟨hok, hfirst, hhashx⟩ := S.fieldsOK_toggle hx ((hinv.nodes x).1 hinner) hb hb' hother hs
  rw [← ht] at hok hfirst hhashx
  have hnotdone := S.done_false hx hb
  refine Inv.step_at S hinv hpos hc hfin (fun y hy => Function.update_of_ne hy _ _) ?_
    ⟨fun _ => by simpa using hok, fun h => absurd hinner h⟩ ?_ (fun h => by rw [hnotdone] at h; cases h)
    (fun _ _ _ => hnotdone)
  · -- `x` has not gone up: it had only one half, and it is carried on or has still only one half
    rw [Delivered, Delivered, hnotdone, Bool.and_false]
    cases hfst : t.2
    · have hcx : carried S.d (o.toList ++ l) x = true := by
        simp [hcont, hfst, Walker.Carries, Walker.hash, S.src_up hxd hinner.2.2, Walker.src, Walker.pos,
          Walker.fromLeft]
      simp [hcx]
    · have hoth : S.halfIn (carried S.d (w :: l)) (finalBelow S.d (w :: l)) x (!b) = false := by
        simpa [hfst] using hfirst.symm
      rw [S.done_false hx (hother.trans hoth), Bool.and_false]
  · intro c hc'
    rw [hcont] at hc'
    split at hc'
    · cases hc'
    · rename_i hfst
      cases Option.mem_some_iff.mp hc'
      have hoth : S.halfIn (carried S.d (w :: l)) (finalBelow S.d (w :: l)) x (!b) = true := by
        simpa [hfst] using hfirst.symm
      refine S.walkerOK_up hinner rfl rfl (fun v hv => ⟨?_, S.done_true hx hb' (hother.trans hoth)⟩) nofun
      cases hv
      exact hhashx hoth

/-- The final goroutine that goes on from `x` came from above the last section and counts the level of its parent. -/
theorem finalOK_up {x : Pos} (hxd : x.h < S.d) (hm : (⟨0, S.m⟩ : Pos).Below x)
    {s : Option (List UInt8)} {level : Nat} (hl : level = x.h) :
    ∀ n b' s' l', Walker.final (parentOf S.d x) x.isLeft s (level + 1) = .final n b' s' l' →
      (⟨0, S.m⟩ : Pos).Below x ∧ l' = levelOf S.d n := by
  intro n b' s' l' h
  cases h
  exact ⟨hm, by rw [levelOf_parentOf hxd, hl]⟩

/-- Where the final goroutine is at `x`, coming from the side `b`: `x` is a node above the leaves, the last section is
under the child it comes from, and it counts the height of `x` as its level. -/
theorem Inv.final_at {nodes : Pos → Node} {out : List (List UInt8)} {b : Bool} {s : Option (List UInt8)}
    {level : Nat} (hinv : S.Inv ⟨nodes, .final (some x) b s level :: l, out⟩) :
    0 < x.h ∧ x.h < S.d ∧ (⟨0, S.m⟩ : Pos).Below (x.child b) ∧ level = x.h := by
  obtain ⟨hxh, -, -, hfinal⟩ := hinv.walkers _ List.mem_cons_self
  obtain ⟨hx, hxd⟩ := hxh x rfl
  obtain ⟨hm, hl⟩ := hfinal _ _ _ _ rfl
  exact ⟨hx, hxd, hm, hl⟩

/-- A pass of the final goroutine that writes the right half with `v` and toggles: the right half goes from not
written to written and the left half stays. The goroutine goes on with nil when it arrived first, and with the node's
hash when it arrived second. -/
theorem Inv.step_final_toggle {nodes : Pos → Node} {out : List (List UInt8)} {b : Bool} {s : Option (List UInt8)}
    {level : Nat} {v : List UInt8} (hinv : S.Inv ⟨nodes, .final (some x) b s level :: l, out⟩)
    (hm : (⟨0, S.m⟩ : Pos).Below x) (hl : level = x.h)
    (hstep : Walker.step S.d S.H S.zh nodes (.final (some x) b s level) =
      (Function.update nodes x ((nodes x).setHalf false v).toggle.1,
        some (.final (parentOf S.d x) x.isLeft (if ((nodes x).setHalf false v).toggle.2 then none
          else some (S.H (((nodes x).setHalf false v).toggle.1.left ++ ((nodes x).setHalf false v).toggle.1.right)))
          (level + 1)), none))
    (hv : v = S.expected (x.child false))
    (hb : S.halfIn (carried S.d (.final (some x) b s level :: l))
      (finalBelow S.d (.final (some x) b s level :: l)) x false = false)
    (hb' : ∀ c : Walker, c.src S.d = x → c.isFinal = true →
      S.halfIn (carried S.d (c :: l)) (finalBelow S.d (c :: l)) x false = true)
    (hother : ∀ c : Walker, c.src S.d = x → c.isFinal = true →
      S.halfIn (carried S.d (c :: l)) (finalBelow S.d (c :: l)) x true =
        S.halfIn (carried S.d (.final (some x) b s level :: l))
          (finalBelow S.d (.final (some x) b s level :: l)) x true) :
    S.Inv ⟨(Walker.step S.d S.H S.zh nodes (.final (some x) b s level)).1,
      (Walker.step S.d S.H S.zh nodes (.final (some x) b s level)).2.1.toList ++ l,
      out ++ (Walker.step S.d S.H S.zh nodes (.final (some x) b s level)).2.2.toList⟩ := by
  set w : Walker := .final (some x) b s level with hw
  have hpos : w.pos = some x := rfl
  obtain ⟨hxh, -, -, -⟩ := hinv.walkers w List.mem_cons_self
  obtain ⟨hx, hxd⟩ := hxh x hpos
  have hinner : S.Inner x := ⟨hx, hxd, S.hasData_of_below hm⟩
  set t := ((nodes x).setHalf false v).toggle with ht
  set c : Walker := .final (parentOf S.d x) x.isLeft (if t.2 then none else some (S.H (t.1.left ++ t.1.right)))
    (level + 1) with hcdef
  rw [hstep, Option.toList_none, List.append_nil, Option.toList_some, List.singleton_append]
  have hcsrc : c.src S.d = x := S.src_up hxd hinner.2.2
  have hc : ∀ c' ∈ some c, c'.src S.d = x ∧ c'.isFinal = w.isFinal := by
    intro c' hc'
    cases Option.mem_some_iff.mp hc'
    exact ⟨hcsrc, rfl⟩
  have hb'c := hb' c hcsrc rfl
  have hotherc : S.halfIn (carried S.d (c :: l)) (finalBelow S.d (c :: l)) x (!false) =
      S.halfIn (carried S.d (w :: l)) (finalBelow S.d (w :: l)) x (!false) := hother c hcsrc rfl
  obtain ⟨hok, hfirst, hhashx⟩ := S.fieldsOK_toggle hx ((hinv.nodes x).1 hinner) hb hb'c hotherc hv
  rw [← ht] at hok hfirst hhashx
  simp only [Bool.not_false] at hfirst hhashx hotherc
  have hnotdone := S.done_false hx hb
  refine Inv.step_at S (o := some c) hinv hpos hc (fun _ => rfl) (fun y hy => Function.update_of_ne hy _ _) ?_
    ⟨fun _ => by simpa using hok, fun h => absurd hinner h⟩ ?_ (fun h => by rw [hnotdone] at h; cases h)
    (fun _ _ _ => hnotdone)
  · -- `x` has not gone up: the goroutine carries it on, or it has still only its right half
    rw [Option.toList_some, List.singleton_append, Delivered, Delivered, hnotdone, Bool.and_false]
    cases hfst : t.2
    · have hcx : c.Carries S.d x = true := by
        simp only [Walker.Carries, hcsrc, beq_self_eq_true, Bool.and_true]
        simp [hcdef, hfst, Walker.hash]
      simp [hcx]
    · have hoth : S.halfIn (carried S.d (w :: l)) (finalBelow S.d (w :: l)) x true = false := by
        simpa [hfst] using hfirst.symm
      rw [S.done_false hx (hotherc.trans hoth), Bool.and_false]
  · intro c' hc'
    cases Option.mem_some_iff.mp hc'
    rw [Option.toList_some, List.singleton_append]
    refine S.walkerOK_up hinner rfl rfl (fun v' hv' => ?_) (S.finalOK_up hxd hm hl)
    · simp only [hcdef, Walker.hash] at hv'
      split at hv'
      · cases hv'
      · rename_i hfst
        cases hv'
        have hoth : S.halfIn (carried S.d (w :: l)) (finalBelow S.d (w :: l)) x true = true := by
          simpa [hfst] using hfirst.symm
        have hb'' : S.halfIn (carried S.d (c :: l)) (finalBelow S.d (c :: l)) x (!false) = true := by
          simpa using hotherc.trans hoth
        exact ⟨hhashx hoth, S.done_true hx hb'c hb''⟩

/-- The final goroutine brings a hash from the right: it writes the right half and toggles. -/
theorem Inv.step_final_right_some {nodes : Pos → Node} {out : List (List UInt8)} {v : List UInt8} {level : Nat}
    (hinv : S.Inv ⟨nodes, .final (some x) false (some v) level :: l, out⟩) :
    S.Inv ⟨(Walker.step S.d S.H S.zh nodes (.final (some x) false (some v) level)).1,
      (Walker.step S.d S.H S.zh nodes (.final (some x) false (some v) level)).2.1.toList ++ l,
      out ++ (Walker.step S.d S.H S.zh nodes (.final (some x) false (some v) level)).2.2.toList⟩ := by
  set w : Walker := .final (some x) false (some v) level with hw
  have hpos : w.pos = some x := rfl
  obtain ⟨hx, -, hm, hl⟩ := Inv.final_at S hinv
  obtain ⟨-, hdata, hhash, -⟩ := hinv.walkers w List.mem_cons_self
  have hsrc : w.src S.d = x.child false := rfl
  dsimp only at hhash
  rw [hsrc] at hdata hhash
  obtain ⟨hv, hdone⟩ := hhash v rfl
  have hcarw : w.Carries S.d (x.child false) = true := by
    simp only [Walker.Carries, hsrc, beq_self_eq_true, Bool.and_true]
    rfl
  refine Inv.step_final_toggle S hinv (hm.trans (Pos.child_below x hx false)) hl rfl hv ?_ (fun c hc hcf => ?_)
    (fun c hc hcf => ?_)
  · rw [← hw, S.halfIn_of_hasData _ _ hdata]
    simp [Delivered, hcarw]
  · exact S.halfIn_after_src (o := some c) hpos hx
      (fun c' hc' => by cases Option.mem_some_iff.mp hc'; exact ⟨hc, hcf⟩) (fun _ => rfl) hdata (hinv.unique _) rfl hdone
  · have := S.halfIn_after_other (l := l) (o := some c) hpos hx
      (fun c' hc' => by cases Option.mem_some_iff.mp hc'; exact ⟨hc, hcf⟩) (fun _ => rfl) nofun
    exact this

/-- The final goroutine comes from the left with nil: it writes the zero hash of the level into the right half,
where there is no data, and toggles. -/
theorem Inv.step_final_left_none {nodes : Pos → Node} {out : List (List UInt8)} {level : Nat}
    (hinv : S.Inv ⟨nodes, .final (some x) true none level :: l, out⟩) :
    S.Inv ⟨(Walker.step S.d S.H S.zh nodes (.final (some x) true none level)).1,
      (Walker.step S.d S.H S.zh nodes (.final (some x) true none level)).2.1.toList ++ l,
      out ++ (Walker.step S.d S.H S.zh nodes (.final (some x) true none level)).2.2.toList⟩ := by
  set w : Walker := .final (some x) true none level with hw
  have hpos : w.pos = some x := rfl
  obtain ⟨hx, -, hm, hl⟩ := Inv.final_at S hinv
  have hnd := S.not_hasData_right hx hm
  -- the right half holds the zero hash of the level
  have hv : S.zh level = S.expected (x.child false) := by
    rw [S.expected_of_lt (by unfold HasData at hnd; omega), Pos.child_h, hl, Nat.sub_add_cancel hx]
  have hfb : finalBelow S.d (w :: l) (x.child true) = true := by simp [hw]
  have hfbrest := finalBelow_rest (d := S.d) (hinv.one_final) (rfl : w.isFinal = true)
  refine Inv.step_final_toggle S hinv (hm.trans (Pos.child_below x hx true)) hl rfl hv ?_ (fun c hc hcf => ?_)
    (fun c hc hcf => ?_)
  · rw [← hw]
    simp [halfIn, hnd, hfb]
  · simp [halfIn, hnd, hc, hcf, hfbrest, Pos.not_below_child x true hx]
  · have hdone' := S.done_after_below (l := l) (o := some c) hpos hx
      (fun c' hc' => by cases Option.mem_some_iff.mp hc'; exact ⟨hc, hcf⟩) (fun _ => rfl) (x.h - 1) le_rfl
    have hcar := S.carried_after_src (l := l) (o := some c)
      (fun c' hc' => by cases Option.mem_some_iff.mp hc'; exact hc) hx true
    simp only [Option.toList_some, List.singleton_append] at hdone' hcar
    have hcarw : w.Carries S.d (x.child true) = false := by simp [hw, Walker.Carries]
    rw [← hw]
    simp only [halfIn, if_true, Delivered, hcar, carried_cons, hcarw, Bool.false_or, Pos.child_h, hdone']

/-- The final goroutine brings a hash from the left, to a node with no data on its right: it writes both halves, the
zero hash on the right, and goes on with the node's hash without a toggle. -/
theorem Inv.step_final_left_some {nodes : Pos → Node} {out : List (List UInt8)} {v : List UInt8} {level : Nat}
    (hinv : S.Inv ⟨nodes, .final (some x) true (some v) level :: l, out⟩) :
    S.Inv ⟨(Walker.step S.d S.H S.zh nodes (.final (some x) true (some v) level)).1,
      (Walker.step S.d S.H S.zh nodes (.final (some x) true (some v) level)).2.1.toList ++ l,
      out ++ (Walker.step S.d S.H S.zh nodes (.final (some x) true (some v) level)).2.2.toList⟩ := by
  set w : Walker := .final (some x) true (some v) level with hw
  have hpos : w.pos = some x := rfl
  obtain ⟨hx, hxd, hm, hl⟩ := Inv.final_at S hinv
  obtain ⟨-, hdata, hhash, -⟩ := hinv.walkers w List.mem_cons_self
  have hsrc : w.src S.d = x.child true := rfl
  dsimp only at hhash
  rw [hsrc] at hdata hhash
  obtain ⟨hv, hdone⟩ := hhash v rfl
  have hnd := S.not_hasData_right hx hm
  have hinner : S.Inner x := ⟨hx, hxd, S.hasData_of_child hx hdata⟩
  have hz : S.zh level = S.expected (x.child false) := by
    rw [S.expected_of_lt (by unfold HasData at hnd; omega), Pos.child_h, hl, Nat.sub_add_cancel hx]
  have hcarw : w.Carries S.d (x.child true) = true := by
    simp only [Walker.Carries, hsrc, beq_self_eq_true, Bool.and_true]
    rfl
  have hfbrest := finalBelow_rest (d := S.d) (hinv.one_final) (rfl : w.isFinal = true)
  set c : Walker := .final (parentOf S.d x) x.isLeft (some (S.H (v ++ S.zh level))) (level + 1) with hcdef
  have hstep : Walker.step S.d S.H S.zh nodes w =
      (Function.update nodes x { nodes x with right := S.zh level, left := v }, some c, none) := rfl
  rw [hstep, Option.toList_none, List.append_nil]
  have hcsrc : c.src S.d = x := S.src_up hxd hinner.2.2
  have hc : ∀ c' ∈ some c, c'.src S.d = x ∧ c'.isFinal = w.isFinal := by
    intro c' hc'
    cases Option.mem_some_iff.mp hc'
    exact ⟨hcsrc, rfl⟩
  -- before the pass neither half is written; after it both are
  have hL : S.halfIn (carried S.d (w :: l)) (finalBelow S.d (w :: l)) x true = false := by
    simp [halfIn, Delivered, hcarw]
  have hR : S.halfIn (carried S.d (w :: l)) (finalBelow S.d (w :: l)) x false = false := by
    simp [halfIn, hnd, hw]
  have hL' : S.halfIn (carried S.d (c :: l)) (finalBelow S.d (c :: l)) x true = true :=
    S.halfIn_after_src hpos hx hc (fun _ => rfl) hdata (hinv.unique _) rfl hdone
  have hR' : S.halfIn (carried S.d (c :: l)) (finalBelow S.d (c :: l)) x false = true := by
    simp [halfIn, hnd, hcsrc, hfbrest, Pos.not_below_child x true hx]
  have hnotdone := S.done_false hx hL
  have hstate : (nodes x).state = (S.init x).state := by
    rcases ((hinv.nodes x).1 hinner).1 with h | ⟨-, -, h, -⟩
    · simpa [hL, hR] using h
    · rw [hL] at h
      cases h
  refine Inv.step_at S (o := some c) hinv hpos hc (fun _ => rfl) (fun y hy => Function.update_of_ne hy _ _) ?_
    ⟨fun _ => ?_, fun h => absurd hinner h⟩ ?_ (fun h => by rw [hnotdone] at h; cases h) (fun _ _ _ => hnotdone)
  · have hcx : c.Carries S.d x = true := by
      simp only [Walker.Carries, hcsrc, beq_self_eq_true, Bool.and_true]
      rfl
    simp [Delivered, hcx, hnotdone]
  · refine ⟨.inr ⟨hnd, by simpa using hstate, hL', hR'⟩, fun b hb => ?_⟩
    cases b
    · simpa using hz
    · simpa using hv
  · intro c' hc'
    cases Option.mem_some_iff.mp hc'
    refine S.walkerOK_up hinner rfl rfl (fun v' hv' => ?_)
      (S.finalOK_up hxd (hm.trans (Pos.child_below x hx true)) hl)
    simp only [hcdef, Walker.hash_final, Option.some.injEq] at hv'
    refine ⟨?_, S.done_true (b := true) hx hL' hR'⟩
    rw [← hv', S.expected_of_pos hx, hv, hz]

/-- The final goroutine comes from the right with nil: it passes the node and goes on with nil. -/
theorem Inv.step_final_right_none {nodes : Pos → Node} {out : List (List UInt8)} {level : Nat}
    (hinv : S.Inv ⟨nodes, .final (some x) false none level :: l, out⟩) :
    S.Inv ⟨(Walker.step S.d S.H S.zh nodes (.final (some x) false none level)).1,
      (Walker.step S.d S.H S.zh nodes (.final (some x) false none level)).2.1.toList ++ l,
      out ++ (Walker.step S.d S.H S.zh nodes (.final (some x) false none level)).2.2.toList⟩ := by
  set w : Walker := .final (some x) false none level with hw
  have hpos : w.pos = some x := rfl
  obtain ⟨hx, hxd, hm, hl⟩ := Inv.final_at S hinv
  have hdata := S.hasData_of_below hm
  have hinner : S.Inner x := ⟨hx, hxd, S.hasData_of_child hx hdata⟩
  set c : Walker := .final (parentOf S.d x) x.isLeft none (level + 1) with hcdef
  have hstep : Walker.step S.d S.H S.zh nodes w = (Function.update nodes x (nodes x), some c, none) := rfl
  rw [hstep, Option.toList_none, List.append_nil]
  have hcsrc : c.src S.d = x := S.src_up hxd hinner.2.2
  have hc : ∀ c' ∈ some c, c'.src S.d = x ∧ c'.isFinal = w.isFinal := by
    intro c' hc'
    cases Option.mem_some_iff.mp hc'
    exact ⟨hcsrc, rfl⟩
  -- neither half changes, and neither does whether a goroutine carries `x`
  have hL : S.halfIn (carried S.d (c :: l)) (finalBelow S.d (c :: l)) x true =
      S.halfIn (carried S.d (w :: l)) (finalBelow S.d (w :: l)) x true :=
    S.halfIn_after_other (l := l) hpos hx hc (fun _ => rfl) nofun
  have hdone' := S.done_after_below (l := l) hpos hx hc (fun _ => rfl) (x.h - 1) le_rfl
  have hcar := S.carried_after_src (l := l) (fun c' hc' => (hc c' hc').1) hx false
  simp only [Option.toList_some, List.singleton_append] at hdone' hcar
  have hR : S.halfIn (carried S.d (c :: l)) (finalBelow S.d (c :: l)) x false =
      S.halfIn (carried S.d (w :: l)) (finalBelow S.d (w :: l)) x false := by
    rw [S.halfIn_of_hasData _ _ hdata, S.halfIn_of_hasData _ _ hdata]
    simp [Delivered, hcar, hdone', hw, Walker.Carries]
  have hdoneq : S.Done (carried S.d (c :: l)) (finalBelow S.d (c :: l)) x.h x.j =
      S.Done (carried S.d (w :: l)) (finalBelow S.d (w :: l)) x.h x.j := by
    rw [S.done_of_pos _ _ hx, S.done_of_pos _ _ hx, hL, hR]
  have hcarx : carried S.d (c :: l) x = carried S.d (w :: l) x := by
    simp [hcdef, hw, Walker.Carries]
  refine Inv.step_at S (o := some c) hinv hpos hc (fun _ => rfl) (fun y hy => Function.update_of_ne hy _ _) ?_
    ⟨fun _ => ?_, fun h => absurd hinner h⟩ ?_ (fun h => by rwa [Option.toList_some, List.singleton_append,
      hdoneq]) (fun c' hc' h => by cases Option.mem_some_iff.mp hc'; simp [hcdef] at h)
  · simp only [Option.toList_some, List.singleton_append, Delivered, hcarx, hdoneq]
  · have hf := (hinv.nodes x).1 hinner
    simp only [Option.toList_some, List.singleton_append, Function.update_self]
    simp only [FieldsOK] at hf ⊢
    rw [hL, hR]
    refine ⟨hf.1, fun b hb => ?_⟩
    cases b
    · exact hf.2 false (hR ▸ hb)
    · exact hf.2 true (hL ▸ hb)
  · intro c' hc'
    cases Option.mem_some_iff.mp hc'
    exact S.walkerOK_up hinner rfl rfl (fun v' hv' => by simp [hcdef] at hv')
      (S.finalOK_up hxd (hm.trans (Pos.child_below x hx false)) hl)

end Pass

/-- A goroutine past the root sends what it carries, a hash or nothing, to the result channel. -/
theorem step_past_root (nodes : Pos → Node) {w : Walker} (hpos : w.pos = none) :
    Walker.step S.d S.H S.zh nodes w = (nodes, none, w.hash) := by
  cases w with
  | node n b s =>
    cases hpos
    rfl
  | final n b s level =>
    cases hpos
    rfl

/-- The hash of the root goes to the result channel once: the goroutine that carries it sends it, and then the root
has gone up. Below the root nothing changes. -/
theorem Inv.past_root {nodes : Pos → Node} {w : Walker} {out : List (List UInt8)}
    (hinv : S.Inv ⟨nodes, w :: rest, out⟩) (hpos : w.pos = none) : S.Inv ⟨nodes, rest, out ++ w.hash.toList⟩ := by
  obtain ⟨hn, hw, hu, ho, hout⟩ := hinv
  dsimp only at hn hw hu ho hout
  have hsrc : w.src S.d = S.root := by simp [Walker.src, hpos, root]
  -- below the root's height, nothing changes whether a goroutine carries it or the final goroutine is under it
  have hagree : ∀ q : Pos, q.h < S.d - 1 →
      carried S.d rest q = carried S.d (w :: rest) q ∧ finalBelow S.d rest q = finalBelow S.d (w :: rest) q := by
    intro q hq
    have hne : S.root ≠ q := fun h => by rw [← h] at hq; simp [root] at hq
    have hnb : ¬ S.root.Below q := fun h => by have := h.h_le; simp only [root] at this; omega
    constructor
    · simp [Walker.Carries, hsrc, hne]
    · simp [hsrc, hnb]
  have hframe := S.done_frame_height hagree
  have hdelq : ∀ q : Pos, q.h < S.d - 1 →
      S.Delivered (carried S.d rest) (finalBelow S.d rest) q = S.Delivered (carried S.d (w :: rest))
        (finalBelow S.d (w :: rest)) q := by
    intro q hq
    simp only [Delivered, (hagree q hq).1, hframe q.h (by omega) q.j]
  have hhalf : ∀ y : Pos, S.Inner y → ∀ b, S.halfIn (carried S.d rest) (finalBelow S.d rest) y b =
      S.halfIn (carried S.d (w :: rest)) (finalBelow S.d (w :: rest)) y b := by
    intro y hi b
    obtain ⟨hy, hyd, -⟩ := hi
    have hc : ∀ b', (y.child b').h < S.d - 1 := fun b' => by simp only [Pos.child_h]; omega
    cases b <;> simp only [halfIn, hdelq _ (hc _), (hagree _ (hc true)).2]
  refine ⟨fun y => ?_, fun r hr => ?_, fun q => ?_, ?_, ?_⟩ <;> dsimp only
  · obtain ⟨h1, h2⟩ := hn y
    refine ⟨fun hi => ?_, h2⟩
    have hf := h1 hi
    simp only [FieldsOK, hhalf y hi] at hf ⊢
    exact hf
  · obtain ⟨hp, hdata, hhash, hfinal⟩ := hw r (List.mem_cons_of_mem _ hr)
    refine ⟨hp, hdata, fun v hv => ?_, hfinal⟩
    obtain ⟨hv', hd⟩ := hhash v hv
    have hsrch : (r.src S.d).h ≤ S.d - 1 := by
      cases hp' : r.pos with
      | none => simp [Walker.src, hp']
      | some p =>
        rw [Walker.src_of_pos _ hp', Pos.child_h]
        have := (hp p hp').2
        omega
    exact ⟨hv', by rw [hframe _ hsrch]; exact hd⟩
  · exact le_trans (List.sublist_cons_self w rest).countP_le (hu q)
  · exact le_trans (List.sublist_cons_self w rest).countP_le ho
  · have hroot : S.Done (carried S.d rest) (finalBelow S.d rest) S.root.h S.root.j =
        S.Done (carried S.d (w :: rest)) (finalBelow S.d (w :: rest)) S.root.h S.root.j :=
      hframe _ (by simp [root]) _
    cases hh : w.hash with
    | none =>
      have hcw : w.Carries S.d S.root = false := by simp [Walker.Carries, hh]
      simpa only [Option.toList_none, List.append_nil, Delivered, hroot, carried_cons, hcw,
        Bool.false_or] using hout
    | some v =>
      -- the goroutine carries the root: it had not gone up, and now it has
      obtain ⟨hv, hd⟩ := (hw w List.mem_cons_self).2.2.1 v hh
      rw [hsrc] at hv hd
      have hcw : w.Carries S.d S.root = true := by simp [Walker.Carries, hh, hsrc]
      have hrest := carried_rest (hu S.root) hcw
      have hnil : out = [] := by
        rcases hout with ⟨h, -⟩ | ⟨-, h⟩
        · exact h
        · simp [Delivered, hcw] at h
      right
      refine ⟨by rw [hnil, hv]; rfl, ?_⟩
      rw [Delivered, hrest, hroot]
      exact hd

/-- One pass of any goroutine keeps the invariant. -/
theorem Inv.visit {nodes : Pos → Node} {w : Walker} {out : List (List UInt8)}
    (hinv : S.Inv ⟨nodes, w :: rest, out⟩) :
    S.Inv ⟨(Walker.step S.d S.H S.zh nodes w).1, (Walker.step S.d S.H S.zh nodes w).2.1.toList ++ rest,
      out ++ (Walker.step S.d S.H S.zh nodes w).2.2.toList⟩ := by
  cases hp : w.pos with
  | none =>
    rw [S.step_past_root nodes hp]
    exact Inv.past_root S hinv hp
  | some x =>
    cases w with
    | node n b s =>
      cases hp
      exact Inv.step_node S hinv
    | final n b s level =>
      cases hp
      cases b <;> cases s
      · exact Inv.step_final_right_none S hinv
      · exact Inv.step_final_right_some S hinv
      · exact Inv.step_final_left_none S hinv
      · exact Inv.step_final_left_some S hinv

/-- Any step keeps the invariant. -/
theorem Inv.step {r r' : Run} (h : S.Inv r) (hs : Threads.Step (Walker.step S.d S.H S.zh) r r') : S.Inv r' := by
  cases hs with
  | pick mem l₁ t l₂ out =>
    have h1 := Inv.visit S (Inv.perm S h List.perm_middle)
    refine Inv.perm S h1 ?_
    show List.Perm _ (l₁ ++ _ ++ l₂)
    rw [List.append_assoc]
    exact List.perm_append_comm_assoc _ _ _

/-! ## The start -/

/-- The goroutines of the chunk before their first pass: a `writeNode` one for each section before the last and the
final one for the last, each at its leaf's parent with its section's hash. -/
def walkers : List Walker :=
  (List.range S.m).map (fun j => .node (parentOf S.d ⟨0, j⟩) (Pos.isLeft ⟨0, j⟩) (S.leafHash j)) ++
    [.final (parentOf S.d ⟨0, S.m⟩) (Pos.isLeft ⟨0, S.m⟩) (some (S.leafHash S.m)) 1]

/-- The tree as it was handed out, with the chunk's goroutines started. -/
def start : Run := ⟨S.init, S.walkers, []⟩

theorem hasData_leaf {j : Nat} (hj : j ≤ S.m) : S.HasData ⟨0, j⟩ := by
  simpa [HasData, Pos.first] using hj

/-- Each goroutine brings its section's leaf. -/
theorem walkers_src : S.walkers.map (Walker.src S.d) = (List.range (S.m + 1)).map (fun j => (⟨0, j⟩ : Pos)) := by
  rw [walkers, List.range_succ, List.map_append, List.map_append, List.map_map]
  refine congrArg₂ (· ++ ·) (List.map_congr_left fun j hj => ?_) ?_
  · simp only [Function.comp, Walker.src_node]
    exact S.src_up S.depth_pos (S.hasData_leaf (le_of_lt (List.mem_range.mp hj)))
  · simp only [List.map_cons, List.map_nil, Walker.src_final]
    rw [S.src_up S.depth_pos (S.hasData_leaf le_rfl)]

/-- At the start every leaf with a section is carried. -/
theorem start_carried {j : Nat} (hj : j ≤ S.m) : carried S.d S.walkers ⟨0, j⟩ = true := by
  rcases Nat.lt_or_eq_of_le hj with hj | rfl
  · refine List.any_eq_true.mpr ⟨.node (parentOf S.d ⟨0, j⟩) (Pos.isLeft ⟨0, j⟩) (S.leafHash j),
      List.mem_append_left _ (List.mem_map.mpr ⟨j, List.mem_range.mpr hj, rfl⟩), ?_⟩
    simp [Walker.Carries, S.src_up S.depth_pos (S.hasData_leaf hj.le)]
  · refine List.any_eq_true.mpr ⟨_, List.mem_append_right _ (List.mem_singleton_self _), ?_⟩
    simp [Walker.Carries, S.src_up S.depth_pos (S.hasData_leaf le_rfl)]

/-- At the start the final goroutine is under exactly the nodes above the last section. -/
theorem start_finalBelow (q : Pos) : finalBelow S.d S.walkers q = decide ((⟨0, S.m⟩ : Pos).Below q) := by
  have hnodes : finalBelow S.d ((List.range S.m).map
      (fun j => .node (parentOf S.d ⟨0, j⟩) (Pos.isLeft ⟨0, j⟩) (S.leafHash j))) q = false :=
    List.any_eq_false.mpr fun w hw => by
      obtain ⟨j, -, rfl⟩ := List.mem_map.mp hw
      simp
  rw [walkers, finalBelow_append, hnodes]
  simp [S.src_up S.depth_pos (S.hasData_leaf le_rfl)]

/-- At the start no node with data under it has gone up: each is carried, or has a half not written. -/
theorem start_not_delivered (q : Pos) (hq : S.HasData q) :
    S.Delivered (carried S.d S.walkers) (finalBelow S.d S.walkers) q = false := by
  obtain ⟨h, j⟩ := q
  induction h generalizing j with
  | zero =>
    simp [Delivered, S.start_carried (by simpa [HasData, Pos.first] using hq)]
  | succ h ih =>
    have hd := hq
    have hl : S.HasData ⟨h, 2 * j⟩ := by
      unfold HasData Pos.first at hd ⊢
      rw [Nat.pow_succ] at hd
      linarith
    have hdone : S.Done (carried S.d S.walkers) (finalBelow S.d S.walkers) (h + 1) j = false := by
      rw [S.done_succ]
      have := ih (2 * j) hl
      simp [halfIn, Pos.child, this]
    simp [Delivered, hdone]

/-- A node with data under it and none on its right has the last section under its left child. -/
theorem last_below_left {x : Pos} (hx : 0 < x.h) (hd : S.HasData x) (hnd : ¬ S.HasData (x.child false)) :
    (⟨0, S.m⟩ : Pos).Below (x.child true) := by
  rw [Pos.leaf_below_iff, Pos.first_child_true x hx, Pos.child_h]
  unfold HasData at hd hnd
  rw [Pos.first_child_false x hx] at hnd
  omega

/-- The invariant holds at the start. -/
theorem inv_start : S.Inv S.start := by
  refine ⟨fun x => ⟨fun hi => ?_, fun _ => rfl⟩, fun w hw => ?_, fun q => ?_, ?_, ?_⟩ <;> dsimp only [start]
  · -- no half is written yet
    obtain ⟨hx, -, hd⟩ := hi
    have hL : S.halfIn (carried S.d S.walkers) (finalBelow S.d S.walkers) x true = false :=
      S.start_not_delivered (x.child true) (by rwa [HasData, Pos.first_child_true x hx])
    have hR : S.halfIn (carried S.d S.walkers) (finalBelow S.d S.walkers) x false = false := by
      simp only [halfIn, Bool.false_eq_true, if_false]
      split
      · exact S.start_not_delivered _ ‹_›
      · rename_i hnd
        simp [S.start_finalBelow, S.last_below_left hx hd hnd]
    refine ⟨.inl (by simp [hL, hR]), fun b hb => ?_⟩
    cases b
    · rw [hR] at hb; cases hb
    · rw [hL] at hb; cases hb
  · have hlevel : levelOf S.d (parentOf S.d ⟨0, S.m⟩) = 1 := levelOf_parentOf S.depth_pos
    rcases List.mem_append.mp hw with hw | hw
    · obtain ⟨j, hj, rfl⟩ := List.mem_map.mp hw
      have hj := List.mem_range.mp hj
      have hsrc := S.src_up S.depth_pos (S.hasData_leaf hj.le)
      refine ⟨fun p hp => ?_, ?_, fun v hv => ?_, fun _ _ _ _ h => by cases h⟩
      · simp only [Walker.pos_node] at hp
        obtain ⟨rfl, hlt⟩ := parentOf_eq_some hp
        simp only [Pos.parent_h] at hlt ⊢
        omega
      · simpa [hsrc] using S.hasData_leaf hj.le
      · simp only [Walker.hash_node, Option.some.injEq] at hv
        simp [← hv, hsrc, expected, build, hj.le, Done]
    · rw [List.mem_singleton.mp hw]
      have hsrc := S.src_up S.depth_pos (S.hasData_leaf le_rfl)
      refine ⟨fun p hp => ?_, ?_, fun v hv => ?_, fun n b s' level h => ?_⟩
      · simp only [Walker.pos_final] at hp
        obtain ⟨rfl, hlt⟩ := parentOf_eq_some hp
        simp only [Pos.parent_h] at hlt ⊢
        omega
      · simpa [hsrc] using S.hasData_leaf le_rfl
      · simp only [Walker.hash_final, Option.some.injEq] at hv
        simp [← hv, hsrc, expected, build, Done]
      · cases h
        simp [hsrc, hlevel]
  · -- each leaf is brought by one goroutine
    have hnodup : (S.walkers.map (Walker.src S.d)).Nodup := by
      rw [S.walkers_src]
      exact (List.nodup_range).map fun a b h => by simpa using h
    calc S.walkers.countP (Walker.Carries S.d q)
        ≤ S.walkers.countP (fun w => w.src S.d == q) :=
          List.countP_mono_left fun w _ h => by simp only [Walker.Carries, Bool.and_eq_true] at h; exact h.2
      _ = (S.walkers.map (Walker.src S.d)).count q := by rw [List.count, List.countP_map]; rfl
      _ ≤ 1 := List.nodup_iff_count_le_one.mp hnodup q
  · simp [walkers]
  · left
    exact ⟨rfl, S.start_not_delivered _ (by simp [HasData, root, Pos.first])⟩

/-- The invariant holds in every state the goroutines reach from the start. -/
theorem Inv.reach {r : Run} (h : Threads.Reach (Walker.step S.d S.H S.zh) S.start r) : S.Inv r := by
  induction h with
  | refl => exact S.inv_start
  | tail _ hs ih => exact Inv.step S ih hs

/-! ## After the result, and at the end -/

/-- With no goroutine left, every node has both halves. -/
theorem done_nil (h j : Nat) : S.Done (carried S.d []) (finalBelow S.d []) h j = true := by
  induction h generalizing j with
  | zero => rfl
  | succ h ih => simp [Done, ih]

/-- Under a node that has gone up, every node with data under it has gone up. The induction is on the height of the
node: a node below it is in the subtree of one of its children, whose half is written. -/
theorem delivered_below {car fb : Pos → Bool} : ∀ n (q : Pos), q.h = n → S.Delivered car fb q = true →
    ∀ p, S.HasData p → p.Below q → S.Delivered car fb p = true := by
  intro n
  induction n with
  | zero =>
    intro q hq hdq p _ hpq
    rw [hpq.eq_of_h_le (by omega)]
    exact hdq
  | succ n ih =>
    intro q hq hdq p hp hpq
    by_cases hpq' : p = q
    · rw [hpq']
      exact hdq
    · obtain ⟨b, hb⟩ := hpq.exists_child hpq'
      have hq0 : 0 < q.h := by omega
      have hdone : S.Done car fb q.h q.j = true := by
        simp only [Delivered, Bool.and_eq_true] at hdq
        exact hdq.2
      rw [S.done_of_pos car fb hq0] at hdone
      have hhalf : S.halfIn car fb q b = true := by cases b <;> simp_all
      have hcd : S.HasData (q.child b) := le_trans hb.first_le hp
      rw [S.halfIn_of_hasData car fb hcd] at hhalf
      exact ih (q.child b) (by simp only [Pos.child_h]; omega) hhalf p hp hb

/-- Every node of the tree with data under it is in the subtree of the root. -/
theorem below_root {x : Pos} (hx : x.h < S.d) (hd : S.HasData x) : x.Below S.root := by
  refine ⟨by simp only [root]; omega, ?_⟩
  simp only [root]
  apply Nat.div_eq_of_lt
  have hlt := S.last_lt
  unfold HasData Pos.first at hd
  have hpow : 2 ^ (S.d - 1) = 2 ^ (S.d - 1 - x.h) * 2 ^ x.h := by rw [← Nat.pow_add]; congr 1; omega
  rw [hpow] at hlt
  exact Nat.lt_of_mul_lt_mul_right (lt_of_le_of_lt hd hlt)

/-- Once the result is sent, every node of the tree with data under it has gone up. -/
theorem Inv.delivered_of_out {r : Run} (h : S.Inv r) (hout : r.out ≠ []) {q : Pos} (hd : S.HasData q)
    (hq : q.h < S.d) : S.Delivered (carried S.d r.threads) (finalBelow S.d r.threads) q = true := by
  have hroot : S.Delivered (carried S.d r.threads) (finalBelow S.d r.threads) S.root = true := by
    rcases h.out with ⟨h0, -⟩ | ⟨-, h1⟩
    · exact absurd h0 hout
    · exact h1
  exact S.delivered_below _ S.root rfl hroot q hd (S.below_root hq hd)

/-- Once the result is sent, every node's toggle state is even: each inner node has been toggled twice, or, where
the final goroutine wrote both halves, not at all. -/
theorem Inv.even_of_out {r : Run} (h : S.Inv r) (hout : r.out ≠ []) (x : Pos) : (r.mem x).state % 2 = 0 := by
  have heven := S.init_even x
  by_cases hi : S.Inner x
  · have hdel := Inv.delivered_of_out S h hout hi.2.2 hi.2.1
    simp only [Delivered, Bool.and_eq_true] at hdel
    rw [S.done_of_pos _ _ hi.1, Bool.and_eq_true] at hdel
    obtain ⟨-, hL, hR⟩ := hdel
    rcases ((h.nodes x).1 hi).1 with hst | ⟨-, hst, -⟩
    · rw [hst, hL, hR]
      simp only [Bool.toNat_true]
      omega
    · rw [hst]
      exact heven
  · rw [(h.nodes x).2 hi]
    exact heven

/-- Once the result is sent, no goroutine changes a node: the only one that can be left is the final one, with nil,
coming from the right, and it only passes. -/
theorem Inv.mem_step_of_out {r r' : Run} (h : S.Inv r) (hout : r.out ≠ [])
    (hs : Threads.Step (Walker.step S.d S.H S.zh) r r') : r'.mem = r.mem := by
  obtain ⟨t, rest, hperm, hmem, -, -⟩ := hs.cases
  have ht : t ∈ r.threads := hperm.mem_iff.mpr List.mem_cons_self
  obtain ⟨hp, hdata, hhash, hfinal⟩ := h.walkers t ht
  have hsrch : (t.src S.d).h < S.d := by
    cases hp' : t.pos with
    | none => simp [Walker.src, hp', S.depth_pos]
    | some x =>
      rw [Walker.src_of_pos _ hp', Pos.child_h]
      have := (hp x hp').2
      omega
  have hdel := Inv.delivered_of_out S h hout hdata hsrch
  -- the goroutine carries nothing: a node it carried would not have gone up
  have hnone : t.hash = none := by
    cases hh : t.hash with
    | none => rfl
    | some v =>
      have hc : carried S.d r.threads (t.src S.d) = true :=
        List.any_eq_true.mpr ⟨t, ht, by simp [Walker.Carries, hh]⟩
      simp [Delivered, hc] at hdel
  rw [hmem]
  cases hp' : t.pos with
  | none => rw [S.step_past_root _ hp']
  | some x =>
    cases t with
    | node n b s => simp at hnone
    | final n b s level =>
      simp only [Walker.hash_final] at hnone
      simp only [Walker.pos_final] at hp'
      subst hnone hp'
      cases b
      · exact Function.update_eq_self x r.mem
      · -- from the left the node would still miss its right half, so it would not have gone up
        exfalso
        obtain ⟨hx, hxd⟩ := hp x rfl
        obtain ⟨hm, -⟩ := hfinal _ _ _ _ rfl
        simp only [Walker.src_final, Option.elim] at hm
        have hnd := S.not_hasData_right hx hm
        have hfb : finalBelow S.d r.threads (x.child true) = true :=
          List.any_eq_true.mpr ⟨_, ht, by simp⟩
        have hR : S.halfIn (carried S.d r.threads) (finalBelow S.d r.threads) x false = false := by
          simp [halfIn, hnd, hfb]
        have hx' := Inv.delivered_of_out S h hout (S.hasData_of_child hx (S.hasData_of_below hm)) hxd
        simp [Delivered, S.done_false hx hR] at hx'

/-- In every run, the result is nothing yet or the hash the root is to get. -/
theorem out_of_reach {r : Run} (h : Threads.Reach (Walker.step S.d S.H S.zh) S.start r) :
    r.out = [] ∨ r.out = [S.expected S.root] := by
  rcases (Inv.reach S h).out with ⟨hout, -⟩ | ⟨hout, -⟩
  · exact .inl hout
  · exact .inr hout

/-- A run that can go no further has sent the hash the root is to get: no goroutine is left, so every node has gone
up. -/
theorem out_of_stuck {r : Run} (h : Threads.Reach (Walker.step S.d S.H S.zh) S.start r)
    (hstuck : ∀ r', ¬ Threads.Step (Walker.step S.d S.H S.zh) r r') : r.out = [S.expected S.root] := by
  have hnil : r.threads = [] := by
    by_contra hne
    obtain ⟨r', hs⟩ := Threads.Step.exists_of_ne_nil hne
    exact hstuck r' hs
  have hdel : S.Delivered (carried S.d r.threads) (finalBelow S.d r.threads) S.root = true := by
    simp [hnil, Delivered, done_nil]
  rcases (Inv.reach S h).out with ⟨-, hd⟩ | ⟨hout, -⟩
  · rw [hd] at hdel
    cases hdel
  · exact hout

/-- Once the result is sent, the nodes stay as they are for the rest of the run. -/
theorem mem_reach_of_out {r r' : Run} (h : Threads.Reach (Walker.step S.d S.H S.zh) S.start r) (hout : r.out ≠ [])
    (hr : Relation.ReflTransGen (Threads.Step (Walker.step S.d S.H S.zh)) r r') : r'.mem = r.mem := by
  induction hr with
  | refl => rfl
  | @tail r₁ r₂ hr' hs ih =>
    have hout' : r₁.out ≠ [] := fun hnil => hout (List.eq_nil_of_prefix_nil (hnil ▸ Threads.reach_out_prefix hr'))
    rw [Inv.mem_step_of_out S (Inv.reach S (h.trans hr')) hout' hs, ih]

end Hashing

/-! ## Every run ends -/

/-- The levels a goroutine has left to climb, and one more for the result: none past the root. -/
def Walker.rank (d : Nat) (w : Walker) : Nat := w.pos.elim 0 fun x => d - x.h + 1

theorem rank_parentOf (d : Nat) (x : Pos) : (parentOf d x).elim 0 (fun p => d - p.h + 1) < d - x.h + 1 := by
  unfold parentOf
  split
  · simp only [Option.elim, Pos.parent_h]
    omega
  · simp

/-- A goroutine that goes on has climbed one level. -/
theorem rank_step {d : Nat} {H : List UInt8 → List UInt8} {zh : Nat → List UInt8} {nodes : Pos → Node}
    {w w' : Walker} (h : (Walker.step d H zh nodes w).2.1 = some w') : w'.rank d < w.rank d := by
  cases w with
  | node n b s =>
    cases n with
    | none => cases h
    | some x =>
      rw [Walker.step, writeNode_some] at h
      simp only at h
      split at h
      · cases h
      · cases h
        exact rank_parentOf d x
  | final n b s level =>
    cases n with
    | none => cases h
    | some x =>
      cases h
      exact rank_parentOf d x

/-- Every run of the goroutines ends, whatever order they take their passes in. -/
theorem runs_end (d : Nat) (H : List UInt8 → List UInt8) (zh : Nat → List UInt8) (r : Run) :
    Acc (fun r' r => Threads.Step (Walker.step d H zh) r r') r :=
  Threads.acc_of_rank (Walker.rank d) (fun _ _ _ h => rank_step h) r

end Etherzero.Bmt
