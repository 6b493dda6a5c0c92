import Mathlib
import Etherzero.Theorems.Bmt
import Etherzero.Lemmas.BmtRef
import Etherzero.Lib.FoldM

/-!
# Write and Sum hash a chunk as the reference hasher does, in every interleaving

For bytes that fit in a chunk, written in any nonempty pieces after `Reset` or `ResetWithLength(span)`, the goroutines
that `Write` and `Sum` start are those of the chunk's hashing (`startRun_session`), on the tree as the pool hands it
out. Where every node's toggle state is even, whatever order the goroutines take their passes in:

* `sum_session`: `Sum(nil)` gets no other hash than `RefHasher.Hash` of the bytes, hashed with the span where one is
  set; a run that can go no further has given it that hash; and every run ends.
* `release_session`: once `Sum` has the root, every node's state is even and no goroutine left changes a node, so
  that the tree goes back to the pool as the next chunk needs it (`next_chunk`).
-/

namespace Etherzero.Bmt

open BinTree

/-- What `Sum(nil)` is to return for the bytes `data` after `ResetWithLength(span)`: `RefHasher.Hash` of the bytes,
hashed after the span where one is set. -/
def refSum (p : TreePool) (H : List UInt8 → List UInt8) (span data : List UInt8) : List UInt8 :=
  if span = [] then (newRefHasher p.segmentSize p.segmentCount).hashData H data
  else H (span ++ (newRefHasher p.segmentSize p.segmentCount).hashData H data)

/-- The goroutines that `Write` and `Sum` start for the bytes `bs` on a tree with the nodes `nodes` hash them right in
every interleaving: they start without a panic; `Sum` can get no other result than `refSum`; a run that can go no
further has given it `refSum`; and every run ends. -/
def SumsRight (p : TreePool) (H : List UInt8 → List UInt8) (nodes : Pos → Node) (span : List UInt8)
    (bs : List (List UInt8)) : Prop :=
  ∃ r₀, startRun p H nodes (sessionCalls p (Tree.withSpan p span) bs) = some r₀ ∧
    (∀ r, Relation.ReflTransGen (p.treeStep H) r₀ r →
      r.sum H (writeAll p (Tree.withSpan p span) bs).1 [] = none ∨
        r.sum H (writeAll p (Tree.withSpan p span) bs).1 [] = some (refSum p H span bs.flatten)) ∧
    (∀ r, Relation.ReflTransGen (p.treeStep H) r₀ r → (∀ r', ¬ p.treeStep H r r') →
      r.sum H (writeAll p (Tree.withSpan p span) bs).1 [] = some (refSum p H span bs.flatten)) ∧
    Acc (fun r' r => p.treeStep H r r') r₀

section Session

variable {p : TreePool} {k : Nat}

/-- A double section on a leaf starts climbing from the leaf's parent, at level 1. -/
theorem writeSection_double (H : List UInt8 → List UInt8) {w : SectionWrite} (hd : w.double = true)
    (hj : w.i < newTree.leafCount p.depth) :
    writeSection p H w = some (startWalker w.final (parentOf p.depth ⟨0, w.i⟩) (Pos.isLeft ⟨0, w.i⟩) (H w.sec) 1) := by
  simp [writeSection, leafOf, hd, hj]

/-- The goroutines that `Write` and `Sum` start on bytes that fit are those of the chunk's hashing. -/
theorem startAll_session (hk : p.segmentCount = 2 ^ (k + 1)) (hs : 0 < p.segmentSize) (H : List UInt8 → List UInt8)
    (span : List UInt8) {bs : List (List UInt8)} (hne : ∀ b ∈ bs, b ≠ []) (hsize : bs.flatten.length ≤ p.size)
    (hpos : bs.flatten ≠ []) (nodes : Pos → Node) (hd : 0 < p.depth)
    (hm : (bs.flatten.length - 1) / (2 * p.segmentSize) < 2 ^ (p.depth - 1)) (heven : ∀ q, (nodes q).state % 2 = 0) :
    startAll p H (sessionCalls p (Tree.withSpan p span) bs) =
      some (Hashing.ofData p H bs.flatten nodes hd hm heven).walkers := by
  obtain ⟨hleaves, -⟩ := TreePool.leaves_of_count hk
  have hm' := hm
  rw [TreePool.depth_of_count hk, Nat.add_sub_cancel] at hm'
  -- every call is a double section on a leaf
  have hcalls : ∀ w ∈ sessionCalls p (Tree.withSpan p span) bs, writeSection p H w =
      some (startWalker w.final (parentOf p.depth ⟨0, w.i⟩) (Pos.isLeft ⟨0, w.i⟩) (H w.sec) 1) := by
    intro w hw
    rw [sessionCalls_of_fit hs span bs hne hsize hpos] at hw
    simp only [List.mem_append, List.mem_map, List.mem_range, List.mem_singleton] at hw
    rcases hw with ⟨j, hj, rfl⟩ | rfl
    · exact writeSection_double H rfl (by rw [hleaves]; exact lt_trans hj hm')
    · exact writeSection_double H rfl (by rw [hleaves]; exact hm')
  rw [startAll, FoldM.mapM_option_of_forall _ _ _ hcalls, sessionCalls_of_fit hs span bs hne hsize hpos]
  simp [Hashing.walkers, Hashing.ofData, fullCall, startWalker]

/-- The run that `Write` and `Sum` start on bytes that fit is the chunk's hashing from its start. -/
theorem startRun_session (hk : p.segmentCount = 2 ^ (k + 1)) (hs : 0 < p.segmentSize) (H : List UInt8 → List UInt8)
    (span : List UInt8) {bs : List (List UInt8)} (hne : ∀ b ∈ bs, b ≠ []) (hsize : bs.flatten.length ≤ p.size)
    (hpos : bs.flatten ≠ []) (nodes : Pos → Node) (hd : 0 < p.depth)
    (hm : (bs.flatten.length - 1) / (2 * p.segmentSize) < 2 ^ (p.depth - 1)) (heven : ∀ q, (nodes q).state % 2 = 0) :
    startRun p H nodes (sessionCalls p (Tree.withSpan p span) bs) =
      some (Hashing.ofData p H bs.flatten nodes hd hm heven).start := by
  rw [startRun, startAll_session hk hs H span hne hsize hpos nodes hd hm heven]
  rfl

/-- `Sum` reads the span the writes leave, which is the span set by `ResetWithLength`. -/
theorem sumResult_session (hs : 0 < p.segmentSize) (H : List UInt8 → List UInt8) (span : List UInt8)
    {bs : List (List UInt8)} (hne : ∀ b ∈ bs, b ≠ []) (hsize : bs.flatten.length ≤ p.size) :
    sumResult H (writeAll p (Tree.withSpan p span) bs).1 [] ((newRefHasher p.segmentSize p.segmentCount).hashData H
      bs.flatten) = refSum p H span bs.flatten := by
  have hspan := (writeAll_spec hs bs [] _ (Tree.holds_withSpan p span) hne (by simpa using hsize)).2.1
  simp [sumResult, refSum, hspan]

/-- The goroutines of a session on bytes that fit hash them right on a tree whose toggle states are all even. -/
theorem sumsRight_of_even (hk : p.segmentCount = 2 ^ (k + 1)) (hs : 0 < p.segmentSize) (H : List UInt8 → List UInt8)
    (span : List UInt8) {bs : List (List UInt8)} (hne : ∀ b ∈ bs, b ≠ []) (hsize : bs.flatten.length ≤ p.size)
    (hpos : bs.flatten ≠ []) (nodes : Pos → Node) (heven : ∀ q, (nodes q).state % 2 = 0) :
    SumsRight p H nodes span bs := by
  have hd := TreePool.depth_pos_of_count hk
  have hm := last_lt_of_fit hk hs hsize
  have hroot := expected_root_ofData hk hs H (List.length_pos_of_ne_nil hpos) hsize nodes hd hm heven
  have hsum := sumResult_session hs H span hne hsize
  set S := Hashing.ofData p H bs.flatten nodes hd hm heven
  refine ⟨S.start, startRun_session hk hs H span hne hsize hpos nodes hd hm heven, fun r hr => ?_,
    fun r hr hstuck => ?_, runs_end _ _ _ _⟩
  · rcases S.out_of_reach hr with hout | hout
    · left
      simp [Run.sum, hout]
    · right
      simp [Run.sum, hout, hroot, hsum]
  · simp [Run.sum, S.out_of_stuck hr hstuck, hroot, hsum]

/-- The tree released after `Sum` has the root hashes the next chunk as the reference hasher does, whatever bytes it
is and however they are written. -/
theorem next_chunk (hk : p.segmentCount = 2 ^ (k + 1)) (hs : 0 < p.segmentSize) (H : List UInt8 → List UInt8)
    (span : List UInt8) {bs : List (List UInt8)} (hne : ∀ b ∈ bs, b ≠ []) (hsize : bs.flatten.length ≤ p.size)
    (hpos : bs.flatten ≠ []) (nodes : Pos → Node) (heven : ∀ q, (nodes q).state % 2 = 0) {r₀ r : Run}
    (h₀ : startRun p H nodes (sessionCalls p (Tree.withSpan p span) bs) = some r₀)
    (hr : Relation.ReflTransGen (p.treeStep H) r₀ r) (hout : r.out ≠ []) (span' : List UInt8)
    {bs' : List (List UInt8)} (hne' : ∀ b ∈ bs', b ≠ []) (hsize' : bs'.flatten.length ≤ p.size)
    (hpos' : bs'.flatten ≠ []) :
    SumsRight p H r.mem span' bs' := by
  have hd := TreePool.depth_pos_of_count hk
  have hm := last_lt_of_fit hk hs hsize
  set S := Hashing.ofData p H bs.flatten nodes hd hm heven
  rw [startRun_session hk hs H span hne hsize hpos nodes hd hm heven, Option.some_inj] at h₀
  subst h₀
  -- the session left every node even, which is all the next one needs
  exact sumsRight_of_even hk hs H span' hne' hsize' hpos' r.mem (Hashing.Inv.even_of_out S (Hashing.Inv.reach S hr) hout)

end Session

end Etherzero.Bmt
