import Mathlib
import Etherzero.Lemmas.Bmt

/-!
# Write and Sum stay on the leaves only while the bytes fit

Bytes that fit in the chunk, written in any pieces, start one call for each section of them, in order. The last
section goes to `Sum`, with its final flag. Each call's index is a leaf of the tree.

Past the chunk this fails. At the end of a section `Write` stops only when `t.cursor == SegmentCount*2`, but the
cursor counts double sections and there are `SegmentCount/2` of them. After `Size` bytes the cursor is on the last
leaf with its section full. One more byte moves the cursor past the leaves, and the `writeSection` that `Sum` then
starts reads `t.leaves[SegmentCount/2]`, which panics.
-/

namespace Etherzero.Bmt

variable {p : TreePool} {k : Nat}

/-- The tree that `ResetWithLength(span)` leaves for the writes. -/
theorem getTree_resetWithLength (h : Hasher) (span : List UInt8) :
    (h.resetWithLength p span).getTree p = Tree.withSpan p span := rfl

/-- The calls of bytes that fit, written in any nonempty pieces after `ResetWithLength(span)`: the sections of the
bytes in order, the last one from `Sum` with its final flag, on the section of the last byte. -/
theorem sessionCalls_of_fit (hs : 0 < p.segmentSize) (span : List UInt8) (bs : List (List UInt8))
    (hne : ∀ b ∈ bs, b ≠ []) (hsize : bs.flatten.length ≤ p.size) (hpos : bs.flatten ≠ []) :
    sessionCalls p (Tree.withSpan p span) bs =
      (List.range ((bs.flatten.length - 1) / (2 * p.segmentSize))).map (fullCall (2 * p.segmentSize) bs.flatten) ++
        [⟨(bs.flatten.length - 1) / (2 * p.segmentSize),
          chunkSection (2 * p.segmentSize) bs.flatten ((bs.flatten.length - 1) / (2 * p.segmentSize)), true, true⟩] := by
  obtain ⟨hh, -, -, hcalls⟩ := writeAll_spec hs bs [] _ (Tree.holds_withSpan p span) hne (by simpa using hsize)
  simp only [List.nil_append] at hh hcalls
  have hcur := hh.cursor_eq hpos
  simp only [Tree.withSpan_cursor, Nat.sub_zero] at hcalls
  rw [sessionCalls, hcalls, sumSection, hh.2.2.2, hcur, List.range_eq_range']

/-- Bytes that fit start no call past the leaves: each call's index is a leaf. -/
theorem sessionCalls_index_leaves (hk : p.segmentCount = 2 ^ (k + 1)) (hs : 0 < p.segmentSize)
    (span : List UInt8) (bs : List (List UInt8)) (hne : ∀ b ∈ bs, b ≠ []) (hsize : bs.flatten.length ≤ p.size) :
    ∀ w ∈ sessionCalls p (Tree.withSpan p span) bs, w.i < 2 ^ k ∧ leafOf p w = some w.i := by
  obtain ⟨hleaves, hpsize⟩ := TreePool.leaves_of_count hk
  obtain ⟨hh, -, -, hcalls⟩ := writeAll_spec hs bs [] _ (Tree.holds_withSpan p span) hne (by simpa using hsize)
  simp only [List.nil_append] at hh hcalls
  -- every index is at most the cursor, and the cursor's section starts below the chunk's end
  have hcur : (writeAll p (Tree.withSpan p span) bs).1.cursor < 2 ^ k := by
    have hlen := hh.1
    rcases Nat.eq_zero_or_pos (writeAll p (Tree.withSpan p span) bs).1.offset with h0 | hpos
    · have hnil := hh.2.2.1 h0
      rw [hnil, h0] at hlen
      simp only [List.length_nil, Nat.add_zero, Nat.mul_eq_zero] at hlen
      rcases hlen with h | h
      · rw [h]; exact Nat.two_pow_pos k
      · omega
    · rw [hpsize] at hsize
      exact Nat.lt_of_mul_lt_mul_right (a := 2 * p.segmentSize) (by omega)
  have hle : ∀ w ∈ sessionCalls p (Tree.withSpan p span) bs,
      w.double = true ∧ w.i ≤ (writeAll p (Tree.withSpan p span) bs).1.cursor := by
    intro w hw
    rw [sessionCalls, List.mem_append, hcalls] at hw
    rcases hw with hw | hw
    · obtain ⟨j, hj, rfl⟩ := List.mem_map.mp hw
      simp only [Tree.withSpan_cursor, List.mem_range'_1] at hj
      exact ⟨rfl, by simp only [fullCall]; omega⟩
    · rw [List.mem_singleton.mp hw]
      exact ⟨rfl, le_refl _⟩
  intro w hw
  obtain ⟨hd, hi⟩ := hle w hw
  have hlt : w.i < 2 ^ k := lt_of_le_of_lt hi hcur
  refine ⟨hlt, ?_⟩
  rw [leafOf, hd, if_pos rfl, hleaves, if_pos hlt]

/-- Past the chunk the cursor leaves the leaves: after `Size` bytes and one more, the call that `Sum` starts is for
section `2^k` of a tree with `2^k` leaves, and `writeSection` panics on it. The last `Write` took its byte. -/
theorem write_past_size_indexes_past_leaves (hk : p.segmentCount = 2 ^ (k + 1)) (hs : 0 < p.segmentSize)
    (span data : List UInt8) (hlen : data.length = p.size) (x : UInt8) :
    (write p (writeAll p (Tree.withSpan p span) [data]).1 [x]).2.2 = 1 ∧
      sumSection (writeAll p (Tree.withSpan p span) [data, [x]]).1 =
        ⟨2 ^ k, chunkSection (2 * p.segmentSize) (data ++ [x]) (2 ^ k), true, true⟩ ∧
      leafOf p (sumSection (writeAll p (Tree.withSpan p span) [data, [x]]).1) = none := by
  obtain ⟨hleaves, hpsize⟩ := TreePool.leaves_of_count hk
  have hs2 : 0 < 2 * p.segmentSize := by omega
  have hne : data ≠ [] := by
    intro h
    rw [h, hpsize] at hlen
    simp only [List.length_nil] at hlen
    have := Nat.two_pow_pos k
    have : 0 < 2 ^ k * (2 * p.segmentSize) := Nat.mul_pos this hs2
    omega
  -- after `Size` bytes the cursor is on the last leaf, with its section full
  obtain ⟨hh, -, -, -⟩ := writeAll_spec hs [data] [] _ (Tree.holds_withSpan p span)
    (by simpa using hne) (by simp [hlen])
  simp only [List.nil_append, List.flatten_cons, List.flatten_nil, List.append_nil] at hh
  generalize ht1 : (writeAll p (Tree.withSpan p span) [data]).1 = t1 at hh
  have hcur1 : t1.cursor = 2 ^ k - 1 := by
    rw [hh.cursor_eq hne, hlen, hpsize, Nat.mul_comm]
    have : 0 < 2 ^ k := Nat.two_pow_pos k
    rw [show 2 * p.segmentSize * 2 ^ k - 1 = (2 * p.segmentSize - 1) + 2 * p.segmentSize * (2 ^ k - 1) by
      rw [Nat.mul_sub, Nat.mul_one]
      have : 2 * p.segmentSize ≤ 2 * p.segmentSize * 2 ^ k := Nat.le_mul_of_pos_right _ this
      omega, Nat.add_mul_div_left _ _ hs2, Nat.div_eq_of_lt (by omega), Nat.zero_add]
  have hfull : t1.offset = 2 * p.segmentSize := by
    have h1 := hh.1
    rw [hcur1, hlen, hpsize, Nat.sub_mul, Nat.one_mul, Nat.mul_comm] at h1
    have : 2 * p.segmentSize ≤ 2 * p.segmentSize * 2 ^ k :=
      Nat.le_mul_of_pos_right _ (Nat.two_pow_pos k)
    omega
  -- the last write goes past the guard, which waits for cursor `SegmentCount*2`, and past the last leaf
  have hguard : t1.cursor ≠ p.segmentCount * 2 := by
    rw [hcur1, hk, Nat.pow_succ]
    have : 0 < 2 ^ k := Nat.two_pow_pos k
    omega
  obtain ⟨t2, hw, hh2, -, -⟩ := @writeRest_spec (2 * p.segmentSize) data [x] t1 (2 * p.segmentSize - t1.offset) hs2
    (by rw [hfull, Nat.sub_self, Nat.add_zero, ← hh.1, hfull, Nat.succ_mul t1.cursor])
    (by rw [hh.2.2.2, chunkSection_append (by have := hh.1; rw [Nat.succ_mul t1.cursor]; omega)])
    (by rw [hfull, Nat.sub_self]; simp)
  have hwrite : write p t1 [x] = writeRest (2 * p.segmentSize) [x] t1 (2 * p.segmentSize - t1.offset) := by
    rw [write, if_neg (by rw [hpsize]; simp; omega), if_neg (by omega), if_neg hguard]
  have hcur2 : t2.cursor = 2 ^ k := by
    rw [hh2.cursor_eq (by simp), List.length_append, hlen, hpsize, List.length_singleton, Nat.add_sub_cancel,
      Nat.mul_div_cancel _ hs2]
  have hall : (writeAll p (Tree.withSpan p span) [data, [x]]).1 = t2 := by
    simp only [writeAll] at ht1 ⊢
    rw [ht1, hwrite, hw]
  refine ⟨by rw [hwrite, hw]; rfl, ?_, ?_⟩
  · rw [hall, sumSection, hcur2, hh2.2.2.2, hcur2]
  · rw [hall, leafOf, sumSection, if_pos rfl, hleaves, hcur2, if_neg (lt_irrefl _)]

/-- A pool of two segments of 32 bytes, the hash size of Keccak256. -/
def twoSegmentPool : TreePool := ⟨32, 2⟩

/-- 64 bytes and then one more, with no span: the byte is taken, and `Sum` starts section 1 of a tree with one leaf. -/
theorem write_past_size_two_segments :
    twoSegmentPool.segmentCount = 2 ^ (0 + 1) ∧ 0 < twoSegmentPool.segmentSize ∧
      (List.replicate 64 (0 : UInt8)).length = twoSegmentPool.size ∧
      (write twoSegmentPool (writeAll twoSegmentPool (Tree.withSpan twoSegmentPool []) [List.replicate 64 0]).1
          [1]).2.2 = 1 ∧
      sumSection (writeAll twoSegmentPool (Tree.withSpan twoSegmentPool []) [List.replicate 64 0, [1]]).1 =
        ⟨2 ^ 0, chunkSection (2 * twoSegmentPool.segmentSize) (List.replicate 64 0 ++ [1]) (2 ^ 0), true, true⟩ ∧
      leafOf twoSegmentPool
          (sumSection (writeAll twoSegmentPool (Tree.withSpan twoSegmentPool []) [List.replicate 64 0, [1]]).1) =
        none :=
  have hk : twoSegmentPool.segmentCount = 2 ^ (0 + 1) := rfl
  have hs : 0 < twoSegmentPool.segmentSize := by decide
  have hlen : (List.replicate 64 (0 : UInt8)).length = twoSegmentPool.size := rfl
  ⟨hk, hs, hlen, write_past_size_indexes_past_leaves hk hs [] _ hlen 1⟩

end Etherzero.Bmt
