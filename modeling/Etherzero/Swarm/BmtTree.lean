import Mathlib
import Etherzero.Swarm.Bmt
import Etherzero.Lib.BinTree
import Etherzero.Lib.Threads

/-!
# The goroutines that hash a tree (swarm/bmt/bmt.go)

Each `writeSection` goroutine climbs from its section's leaf towards the root. In `writeNode`'s loop it writes the
hash it carries into its side of the node, `left` or `right`, and toggles the node's `state`: the first thread to
arrive at a node ends there, and the second hashes the node's two halves and climbs on. `writeFinalNode`, for the
section that `Sum` starts, does the same where the node has data on its right; where it comes from the left, it
writes the zero hash of the level on the right, and it climbs on with nil when it did not hash the node. At the root
the hash goes to the tree's `result` channel, where `Sum` takes the first one.

A tree of depth `d` has its leaves at height 0 and its root at height `d - 1`; node `j` of a level has node `j / 2`
of the level above as its parent, and is a left child for even `j`, as `newTree` links them. A goroutine is a walker:
the node it is at, `none` past the root, the side it comes from, and what it carries. One step of a walker is one
pass of its loop at a node: the writes, the toggle and, for the thread that arrives second, the hash of the halves.
The pass is atomic here: the side a thread writes is written by no other thread, and the halves are read only by
the thread that toggles second, after both writes. Go's `state` is an `int32` counter; it is a number here, which is
the same while it stays below `2^31`.
-/

namespace Etherzero.Bmt

open BinTree

/-- The fields of a `node` that the goroutines write: the toggle `state`, and the two halves. -/
structure Node where
  state : Nat
  left : List UInt8
  right : List UInt8
  deriving DecidableEq, Repr

/-- `toggle`: `atomic.AddInt32(&n.state, 1) % 2 == 1`, true for the thread that arrives first. -/
def Node.toggle (n : Node) : Node × Bool := ({ n with state := n.state + 1 }, (n.state + 1) % 2 == 1)

/-- `n.parent` in a tree of depth `d`: the node of half the index on the level above, and `nil` above the root. -/
def parentOf (d : Nat) (p : Pos) : Option Pos := if p.h + 1 < d then some p.parent else none

/-- A `writeSection` goroutine on its way up. In `writeNode`'s loop it is at the node `n` (`none` past the root),
comes from the left half or the right, and carries the hash `s`. In `writeFinalNode`'s loop `s` may be nil and
`level` counts the levels. -/
inductive Walker where
  | node (n : Option Pos) (isLeft : Bool) (s : List UInt8)
  | final (n : Option Pos) (isLeft : Bool) (s : Option (List UInt8)) (level : Nat)
  deriving DecidableEq, Repr

/-- The tree's nodes, the goroutines running, and the hashes sent on the tree's `result` channel. -/
abbrev Run := Threads.Config (Pos → Node) Walker (List UInt8)

section Loops

variable (d : Nat) (H : List UInt8 → List UInt8) (zerohashes : Nat → List UInt8)

/-- One pass of `writeNode`'s loop. Past the root the hash goes to the result. At a node the hash is written into
the half it comes from and the node toggled; the thread that arrives second goes on to the parent with the hash of
both halves. -/
def writeNode (nodes : Pos → Node) (n : Option Pos) (isLeft : Bool) (s : List UInt8) :
    (Pos → Node) × Option Walker × Option (List UInt8) :=
  match n with
  | none => (nodes, none, some s)
  | some p =>
    let t := (if isLeft then { nodes p with left := s } else { nodes p with right := s }).toggle
    if t.2 then (Function.update nodes p t.1, none, none)
    else (Function.update nodes p t.1, some (.node (parentOf d p) p.isLeft (H (t.1.left ++ t.1.right))), none)

/-- The writes of one pass of `writeFinalNode`'s loop at a node, and `noHash`. From the left the right half is the
zero hash of the level; a hash is written into the left half with no toggle, and a nil toggles. From the right a
hash is written and toggles, and a nil does nothing. -/
def finalWrite (nd : Node) (isLeft : Bool) (s : Option (List UInt8)) (level : Nat) : Node × Bool :=
  if isLeft then
    match s with
    | some v => ({ nd with right := zerohashes level, left := v }, false)
    | none => { nd with right := zerohashes level }.toggle
  else
    match s with
    | some v => { nd with right := v }.toggle
    | none => (nd, true)

/-- One pass of `writeFinalNode`'s loop. Past the root a hash that is not nil goes to the result. At a node, after
the writes, the thread goes on to the parent with nil when `noHash`, and with the hash of both halves otherwise. -/
def writeFinalNode (nodes : Pos → Node) (n : Option Pos) (isLeft : Bool) (s : Option (List UInt8)) (level : Nat) :
    (Pos → Node) × Option Walker × Option (List UInt8) :=
  match n with
  | none => (nodes, none, s)
  | some p =>
    let t := finalWrite zerohashes (nodes p) isLeft s level
    (Function.update nodes p t.1,
      some (.final (parentOf d p) p.isLeft (if t.2 then none else some (H (t.1.left ++ t.1.right))) (level + 1)),
      none)

/-- One pass of the loop a goroutine is in. -/
def Walker.step (nodes : Pos → Node) : Walker → (Pos → Node) × Option Walker × Option (List UInt8)
  | .node n isLeft s => writeNode d H nodes n isLeft s
  | .final n isLeft s level => writeFinalNode d H zerohashes nodes n isLeft s level

end Loops

/-- The goroutine of `writeSection` before its first pass: `writeFinalNode`'s loop for the final section, and
`writeNode`'s for the others. -/
def startWalker (final : Bool) (n : Option Pos) (isLeft : Bool) (s : List UInt8) (level : Nat) : Walker :=
  if final then .final n isLeft (some s) level else .node n isLeft s

/-- `writeSection(i, section, double, final)` on a tree of the pool. A double section's hash goes to
`leaves[i].parent` from the side of `leaves[i]`, at level 1; a single section goes to `leaves[i/2]` from the side of
`i`, at level 0. `none` where the leaf is out of range and Go panics. -/
def writeSection (p : TreePool) (H : List UInt8 → List UInt8) (w : SectionWrite) : Option Walker :=
  (leafOf p w).map fun j =>
    if w.double then startWalker w.final (parentOf p.depth ⟨0, j⟩) (Pos.isLeft ⟨0, j⟩) (H w.sec) 1
    else startWalker w.final (some ⟨0, j⟩) (w.i % 2 == 0) w.sec 0

/-- The goroutines that the calls start, or `none` if one of them panics. -/
def startAll (p : TreePool) (H : List UInt8 → List UInt8) (calls : List SectionWrite) : Option (List Walker) :=
  calls.mapM (writeSection p H)

/-- The tree as the pool hands it out, with the nodes `nodes`, and the goroutines that the calls start; `none` if one
of them panics. -/
def startRun (p : TreePool) (H : List UInt8 → List UInt8) (nodes : Pos → Node) (calls : List SectionWrite) :
    Option Run :=
  (startAll p H calls).map fun ws => ⟨nodes, ws, []⟩

/-- One pass of any goroutine on a tree of the pool, whose `zerohashes` are those of `NewTreePool`. -/
def TreePool.treeStep (p : TreePool) (H : List UInt8 → List UInt8) : Run → Run → Prop :=
  Threads.Step (Walker.step p.depth H (zerohashes H p.segmentSize))

/-- What `Sum(b)` returns once the first hash has come on the result channel. -/
def Run.sum (H : List UInt8 → List UInt8) (t : Tree) (b : List UInt8) (r : Run) : Option (List UInt8) :=
  r.out.head?.map (sumResult H t b)

end Etherzero.Bmt
