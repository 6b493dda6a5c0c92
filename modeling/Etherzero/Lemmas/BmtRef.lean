import Mathlib
import Etherzero.Lemmas.Bmt
import Etherzero.Lemmas.BmtTree

/-!
# The reference hasher, and the goroutines a chunk starts

`RefHasher.hash` hashes zero-padded data by halves. Cut into sections, the slice its recursion reaches at height `h`
and index `j` holds the `2^h` sections from section `j * 2^h` on, and its hash is the value `build` gives the node
`⟨h, j⟩` over the hashes of the sections: the recursion on halves and the tree agree level by level. For bytes that
fit in a chunk, the sections of the padded data are those `Write` hands to `writeSection`, and the sections past the
data hash to the first zero hash; so the root the tree is to get is `RefHasher.Hash` of the bytes.

The goroutines that `Write` and `Sum` start for such bytes are those of the chunk's hashing: one `writeNode` walker
for each full section, and the final one for the last section.
-/

namespace Etherzero.Bmt

open BinTree

/-! ## The reference hasher by halves -/

/-- The doubling loop of `NewRefHasher` from `c = 2^(j+1)` stops at `count = 2^(k+1)`. -/
theorem newRefHasher_loop_two_pow (k : Nat) :
    ∀ fuel j, j ≤ k → k ≤ j + fuel → newRefHasher.loop (2 ^ (k + 1)) fuel (2 ^ (j + 1)) = 2 ^ (k + 1) := by
  intro fuel
  induction fuel with
  | zero =>
    intro j hj hf
    rw [newRefHasher.loop, show j = k by omega]
  | succ fuel ih =>
    intro j hj hf
    rw [newRefHasher.loop]
    by_cases hjk : j < k
    · rw [if_pos (Nat.pow_lt_pow_right (by norm_num) (by omega)), ← Nat.pow_succ]
      exact ih (j + 1) (by omega) (by omega)
    · rw [show j = k by omega, if_neg (lt_irrefl _)]

/-- The reference hasher for `2^(k+1)` segments hashes `2^(k+1)` segments, two to a section. -/
theorem newRefHasher_two_pow (hashsize k : Nat) :
    newRefHasher hashsize (2 ^ (k + 1)) = ⟨2 ^ (k + 1) * hashsize, 2 * hashsize⟩ := by
  have hloop := newRefHasher_loop_two_pow k (2 ^ (k + 1)) 0 (Nat.zero_le k)
    (by have := Nat.lt_two_pow_self (n := k + 1); omega)
  rw [Nat.zero_add, Nat.pow_one] at hloop
  rw [newRefHasher, hloop]

/-- The slice of `P` that the reference hasher reaches at height `h` and index `j`: the `2^h` sections of `sec` bytes
from section `j * 2^h` on. -/
def slice (sec : Nat) (P : List UInt8) (h j : Nat) : List UInt8 := (P.drop (j * 2 ^ h * sec)).take (2 ^ h * sec)

/-- The first half of a slice is the slice of the left child. -/
theorem slice_take (sec : Nat) (P : List UInt8) (h j : Nat) :
    (slice sec P (h + 1) j).take (2 ^ h * sec) = slice sec P h (2 * j) := by
  rw [slice, slice, List.take_take,
    Nat.min_eq_left (Nat.mul_le_mul_right _ (Nat.pow_le_pow_right (by norm_num) (Nat.le_succ h)))]
  congr 2
  rw [Nat.pow_succ]
  ring

/-- The second half of a slice is the slice of the right child. -/
theorem slice_drop (sec : Nat) (P : List UInt8) (h j : Nat) :
    (slice sec P (h + 1) j).drop (2 ^ h * sec) = slice sec P h (2 * j + 1) := by
  have hdouble : 2 ^ (h + 1) * sec = 2 ^ h * sec + 2 ^ h * sec := by rw [Nat.pow_succ]; ring
  rw [slice, slice, List.drop_take, List.drop_drop, hdouble, Nat.add_sub_cancel]
  congr 2
  rw [Nat.pow_succ]
  ring

/-- `hash` on the slice of height `h` is the value of the node `⟨h, j⟩` over the hashes of the sections, with fuel
for its `h` halvings. The induction is on the height: a slice longer than a section is cut into the slices of the two
children. -/
theorem RefHasher.hash_slice (rh : RefHasher) (H : List UInt8 → List UInt8) {sec : Nat}
    (hsec : rh.sectionLength = sec) (hpos : 0 < sec) (P : List UInt8) :
    ∀ h fuel j, h ≤ fuel → rh.hash H fuel (slice sec P h j) (2 ^ h * sec) =
      build (fun i => H (slice sec P 0 i)) (fun a b => H (a ++ b)) h j := by
  intro h
  induction h with
  | zero =>
    intro fuel j _
    cases fuel with
    | zero => rfl
    | succ fuel => simp [RefHasher.hash, build, hsec]
  | succ h ih =>
    intro fuel j hf
    obtain ⟨fuel, rfl⟩ : ∃ f, fuel = f + 1 := ⟨fuel - 1, by omega⟩
    have hne : 2 ^ (h + 1) * sec ≠ rh.sectionLength := by
      rw [hsec, Nat.pow_succ]
      have := Nat.two_pow_pos h
      nlinarith
    have hhalf : 2 ^ (h + 1) * sec / 2 = 2 ^ h * sec := by
      rw [Nat.pow_succ, Nat.mul_right_comm, Nat.mul_div_cancel _ (by norm_num)]
    rw [RefHasher.hash, if_neg hne]
    simp only [hhalf, slice_take, slice_drop, ih fuel _ (by omega), build]

/-! ## The padded data -/

theorem copyAt_replicate_zero (L : Nat) (data : List UInt8) (h : data.length ≤ L) :
    copyAt (List.replicate L 0) 0 data = data ++ List.replicate (L - data.length) 0 := by
  simp [copyAt, List.take_of_length_le h, List.drop_replicate]

section Padded

variable {sec L : Nat} {data : List UInt8}

/-- A section of the padded data with a byte of the data in it is that section of the data, padded with zeros. -/
theorem slice_padded_of_le (hL : data.length ≤ L) {i : Nat} (hi : i * sec < data.length) (hiL : (i + 1) * sec ≤ L) :
    slice sec (data ++ List.replicate (L - data.length) 0) 0 i = chunkSection sec data i := by
  have hX : (data.drop (i * sec)).length = data.length - i * sec := List.length_drop
  rw [slice, chunkSection, newSection_eq, Nat.pow_zero, Nat.mul_one, Nat.one_mul,
    List.drop_append_of_le_length hi.le, List.take_append, List.take_replicate, hX]
  congr 2
  rw [Nat.succ_mul] at hiL
  omega

/-- A section of the padded data past the data is all zeros. -/
theorem slice_padded_of_ge {i : Nat} (hi : data.length ≤ i * sec) (hiL : (i + 1) * sec ≤ L) :
    slice sec (data ++ List.replicate (L - data.length) 0) 0 i = List.replicate sec 0 := by
  rw [slice, Nat.pow_zero, Nat.mul_one, Nat.one_mul, List.drop_append, List.drop_eq_nil_of_le hi, List.nil_append,
    List.drop_replicate, List.take_replicate]
  congr 1
  rw [Nat.succ_mul] at hiL
  omega

end Padded

/-! ## The chunk's hashing -/

/-- The hashing of the bytes `data` on a tree of the pool handed out with the nodes `nodes`: its sections are those of
the bytes, the last one is that of the last byte, and its zero hashes are the pool's. -/
def Hashing.ofData (p : TreePool) (H : List UInt8 → List UInt8) (data : List UInt8) (nodes : Pos → Node)
    (hd : 0 < p.depth) (hm : (data.length - 1) / (2 * p.segmentSize) < 2 ^ (p.depth - 1))
    (heven : ∀ q, (nodes q).state % 2 = 0) : Hashing where
  d := p.depth
  m := (data.length - 1) / (2 * p.segmentSize)
  H := H
  zh := zerohashes H p.segmentSize
  leafHash j := H (chunkSection (2 * p.segmentSize) data j)
  init := nodes
  depth_pos := hd
  last_lt := hm
  zh_succ _ := rfl
  init_even := heven

section Pool

variable {p : TreePool} {k : Nat}

theorem TreePool.depth_of_count (hk : p.segmentCount = 2 ^ (k + 1)) : p.depth = k + 1 := by
  rw [TreePool.depth, hk, calculateDepthFor_two_pow]

theorem TreePool.depth_pos_of_count (hk : p.segmentCount = 2 ^ (k + 1)) : 0 < p.depth := by
  rw [TreePool.depth_of_count hk]
  omega

/-- Bytes that fit end in a section of a leaf. -/
theorem last_lt_of_fit (hk : p.segmentCount = 2 ^ (k + 1)) (hs : 0 < p.segmentSize) {data : List UInt8}
    (hsize : data.length ≤ p.size) : (data.length - 1) / (2 * p.segmentSize) < 2 ^ (p.depth - 1) := by
  obtain ⟨-, hpsize⟩ := TreePool.leaves_of_count hk
  have hpos : 0 < p.size := by rw [hpsize]; positivity
  rw [TreePool.depth_of_count hk, Nat.add_sub_cancel, Nat.div_lt_iff_lt_mul (by omega), ← hpsize]
  omega

/-- The root the tree of bytes that fit is to get is `RefHasher.Hash` of the bytes. -/
theorem expected_root_ofData (hk : p.segmentCount = 2 ^ (k + 1)) (hs : 0 < p.segmentSize)
    (H : List UInt8 → List UInt8) {data : List UInt8} (hpos : 0 < data.length) (hsize : data.length ≤ p.size)
    (nodes : Pos → Node) (hd : 0 < p.depth) (hm : (data.length - 1) / (2 * p.segmentSize) < 2 ^ (p.depth - 1))
    (heven : ∀ q, (nodes q).state % 2 = 0) :
    (Hashing.ofData p H data nodes hd hm heven).expected (Hashing.ofData p H data nodes hd hm heven).root =
      (newRefHasher p.segmentSize p.segmentCount).hashData H data := by
  set S := Hashing.ofData p H data nodes hd hm heven with hS
  obtain ⟨-, hpsize⟩ := TreePool.leaves_of_count hk
  have hsec : 0 < 2 * p.segmentSize := by omega
  have hdL : data.length ≤ 2 ^ k * (2 * p.segmentSize) := hpsize ▸ hsize
  set P := data ++ List.replicate (2 ^ k * (2 * p.segmentSize) - data.length) 0 with hP
  -- the leaves of the tree are the hashes of the sections of the padded data
  have hleaf : ∀ i, 0 * 2 ^ k ≤ i → i < (0 + 1) * 2 ^ k →
      (if i ≤ S.m then S.leafHash i else S.zh 1) = H (slice (2 * p.segmentSize) P 0 i) := by
    intro i _ hi
    have hiL : (i + 1) * (2 * p.segmentSize) ≤ 2 ^ k * (2 * p.segmentSize) := Nat.mul_le_mul_right _ (by omega)
    show (if i ≤ (data.length - 1) / (2 * p.segmentSize) then H (chunkSection (2 * p.segmentSize) data i)
      else zerohashes H p.segmentSize 1) = _
    split
    · rename_i him
      rw [slice_padded_of_le hdL (by rw [Nat.le_div_iff_mul_le hsec] at him; omega) hiL]
    · rename_i him
      rw [slice_padded_of_ge (by rw [not_le, Nat.div_lt_iff_lt_mul hsec] at him; omega) hiL, zerohashes,
        zerohashes, List.replicate_append_replicate, Nat.two_mul]
  have hroot : S.root = ⟨k, 0⟩ := by
    simp [Hashing.root, S, Hashing.ofData, TreePool.depth_of_count hk]
  have hfuel : k ≤ 2 ^ k * (2 * p.segmentSize) := by
    have := Nat.lt_two_pow_self (n := k)
    nlinarith
  have hwhole : slice (2 * p.segmentSize) P k 0 = P := by
    rw [slice, Nat.zero_mul, Nat.zero_mul, List.drop_zero, List.take_of_length_le (by simp [hP]; omega)]
  have hrh : newRefHasher p.segmentSize p.segmentCount = ⟨2 ^ k * (2 * p.segmentSize), 2 * p.segmentSize⟩ := by
    rw [hk, newRefHasher_two_pow, Nat.pow_succ]
    congr 1
    ring
  calc S.expected S.root
      = build (fun i => H (slice (2 * p.segmentSize) P 0 i)) (fun a b => H (a ++ b)) k 0 := by
        rw [hroot, Hashing.expected]
        exact build_congr _ k 0 hleaf
    _ = RefHasher.hash ⟨2 ^ k * (2 * p.segmentSize), 2 * p.segmentSize⟩ H (2 ^ k * (2 * p.segmentSize))
          (slice (2 * p.segmentSize) P k 0) (2 ^ k * (2 * p.segmentSize)) :=
        (RefHasher.hash_slice ⟨2 ^ k * (2 * p.segmentSize), 2 * p.segmentSize⟩ H rfl hsec P k _ 0 hfuel).symm
    _ = (newRefHasher p.segmentSize p.segmentCount).hashData H data := by
        rw [hrh, RefHasher.hashData, hwhole, hP, copyAt_replicate_zero _ data hdL]

end Pool

end Etherzero.Bmt
