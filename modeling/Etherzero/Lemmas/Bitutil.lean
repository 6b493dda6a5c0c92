import Mathlib
import Etherzero.Lib.Bitset
import Etherzero.Common.Bitutil

/-!
# Sparse bitset compression: what the decoder reads back

The bitset the encoder builds holds exactly the positions of the non-zero bytes (`bitAt_nonZeroBitset`), and the
bytes it gathers are the non-zero bytes in order. The decoder's loop puts the bytes of its input back at the positions
the bitset holds; for the encoder's bitset and bytes it rebuilds the string position by position (`decodedUpTo`). One
level of each recursion then gives the round trip by induction on the length of the string, down to its bitset,
whatever input follows the encoding: the encoder's bitset always has a non-zero byte, so the decoder's special case
for a single byte, which reads one more input byte when it is not zero, never meets a zero byte written as nothing.
-/

namespace Etherzero.Bitutil

open Etherzero.Bitset

/-! ## Masks -/

theorem bitMask_toNat (i : Nat) : (bitMask i).toNat = 2 ^ (7 - i % 8) := by
  have h : ∀ k : Fin 8, ((1 : UInt8) <<< UInt8.ofNat (7 - k.val)).toNat = 2 ^ (7 - k.val) := by decide
  exact h ⟨i % 8, Nat.mod_lt _ (by decide)⟩

theorem and_bitMask_ne_zero (b : UInt8) (i : Nat) : b &&& bitMask i ≠ 0 ↔ b.toNat.testBit (7 - i % 8) = true := by
  rw [ne_eq, ← UInt8.toNat_inj, UInt8.toNat_and, bitMask_toNat, Nat.and_two_pow]
  cases b.toNat.testBit (7 - i % 8) <;> simp

/-- Setting the mask of `i` in its byte adds position `i` and no other. -/
theorem bitAt_set {bits : List UInt8} {i : Nat} (hi : i / 8 < bits.length) (p : Nat) :
    bitAt (bits.modify (i / 8) (· ||| bitMask i)) p = (bitAt bits p || decide (p = i)) := by
  rw [bitAt_modify_or hi, bitMask_toNat, Nat.testBit_two_pow]
  congr 1
  have hp : p % 8 < 8 := Nat.mod_lt _ (by decide)
  have hi' : i % 8 < 8 := Nat.mod_lt _ (by decide)
  rw [Bool.eq_iff_iff]
  simp only [Bool.and_eq_true, beq_iff_eq, decide_eq_true_eq]
  omega

/-! ## Encoding -/

/-- The encoder's loop from position `i`: it gathers the non-zero bytes in order and sets the bit of each, with room
in the bitset for every position it meets. -/
theorem encodeLoop_spec (data : List UInt8) (i : Nat) (bitset nz : List UInt8)
    (hfit : i + data.length ≤ 8 * bitset.length) :
    (encodeLoop data i bitset nz).2 = nz ++ data.filter (· ≠ 0) ∧
      ∀ p, bitAt (encodeLoop data i bitset nz).1 p =
        (bitAt bitset p || decide (i ≤ p ∧ p < i + data.length ∧ data.getD (p - i) 0 ≠ 0)) := by
  induction data generalizing i bitset nz with
  | nil => simp [encodeLoop]
  | cons b bs ih =>
    simp only [List.length_cons] at hfit
    -- the position of `b` against the positions of the rest
    have hpos : ∀ p, decide (i ≤ p ∧ p < i + (b :: bs).length ∧ (b :: bs).getD (p - i) 0 ≠ 0) =
        (decide (p = i ∧ b ≠ 0) || decide (i + 1 ≤ p ∧ p < i + 1 + bs.length ∧ bs.getD (p - (i + 1)) 0 ≠ 0)) := by
      intro p
      rw [Bool.eq_iff_iff]
      simp only [decide_eq_true_eq, Bool.or_eq_true]
      rcases Nat.lt_trichotomy p i with hlt | rfl | hgt
      · omega
      · simp
      · rw [show p - i = p - (i + 1) + 1 by omega, List.getD_cons_succ, List.length_cons]
        constructor
        · rintro ⟨-, h₂, h₃⟩
          exact .inr ⟨by omega, by omega, h₃⟩
        · rintro (⟨h, -⟩ | ⟨-, h₂, h₃⟩)
          · omega
          · exact ⟨by omega, by omega, h₃⟩
    rw [encodeLoop]
    split
    · rename_i hb
      obtain ⟨h₁, h₂⟩ := ih (i + 1) (bitset.modify (i / 8) (· ||| bitMask i)) (nz ++ [b])
        (by rw [List.length_modify]; omega)
      refine ⟨by rw [h₁, List.filter_cons_of_pos (by simpa using hb), List.append_assoc]; rfl, fun p => ?_⟩
      rw [h₂, bitAt_set (by omega), hpos, Bool.or_assoc]
      simp [hb]
    · rename_i hb
      obtain ⟨h₁, h₂⟩ := ih (i + 1) bitset nz (by omega)
      refine ⟨by rw [h₁, List.filter_cons_of_neg (by simpa using hb)], fun p => ?_⟩
      rw [h₂, hpos]
      simp [show b = 0 by simpa using hb]


/-! ## Decoding -/

/-- The target after the bits before `i` are handled: the bytes of `d` before `i`, zeros from there. -/
def decodedUpTo (d : List UInt8) (i : Nat) : List UInt8 := d.mapIdx fun p b => if p < i then b else 0

theorem length_decodedUpTo (d : List UInt8) (i : Nat) : (decodedUpTo d i).length = d.length := List.length_mapIdx

theorem decodedUpTo_zero (d : List UInt8) : decodedUpTo d 0 = List.replicate d.length 0 := by
  apply List.ext_getElem (by rw [length_decodedUpTo, List.length_replicate])
  intro p _ _
  simp [decodedUpTo]

theorem decodedUpTo_of_le {d : List UInt8} {i : Nat} (h : d.length ≤ i) : decodedUpTo d i = d := by
  apply List.ext_getElem (length_decodedUpTo d i)
  intro p hp _
  rw [length_decodedUpTo] at hp
  simp [decodedUpTo, show p < i by omega]

theorem decodedUpTo_succ_of_zero {d : List UInt8} {i : Nat} (h : d.getD i 0 = 0) :
    decodedUpTo d (i + 1) = decodedUpTo d i := by
  apply List.ext_getElem (by rw [length_decodedUpTo, length_decodedUpTo])
  intro p hp₁ _
  have hp : p < d.length := by simpa [length_decodedUpTo] using hp₁
  simp only [decodedUpTo, List.getElem_mapIdx]
  by_cases hpi : p = i
  · subst hpi
    rw [List.getD_eq_getElem _ _ hp] at h
    simp [h]
  · split_ifs <;> first | rfl | omega

theorem decodedUpTo_set (d : List UInt8) (i : Nat) :
    (decodedUpTo d i).set i (d.getD i 0) = decodedUpTo d (i + 1) := by
  apply List.ext_getElem (by rw [List.length_set, length_decodedUpTo, length_decodedUpTo])
  intro p hp₁ _
  have hp : p < d.length := by simpa [length_decodedUpTo] using hp₁
  simp only [decodedUpTo, List.getElem_set, List.getElem_mapIdx]
  by_cases hpi : i = p
  · subst hpi
    simp [List.getElem?_eq_getElem hp]
  · rw [if_neg hpi]
    split_ifs <;> first | rfl | omega

theorem filter_drop_of_zero {d : List UInt8} {i : Nat} (h : d.getD i 0 = 0) :
    (d.drop i).filter (· ≠ 0) = (d.drop (i + 1)).filter (· ≠ 0) := by
  by_cases hi : i < d.length
  · rw [List.drop_eq_getElem_cons hi, List.filter_cons_of_neg]
    simp only [List.getD_eq_getElem?_getD, List.getElem?_eq_getElem hi, Option.getD_some] at h
    simp [h]
  · rw [List.drop_eq_nil_of_le (by omega), List.drop_eq_nil_of_le (by omega)]

theorem filter_drop_of_ne {d : List UInt8} {i : Nat} (hi : i < d.length) (h : d.getD i 0 ≠ 0) :
    (d.drop i).filter (· ≠ 0) = d.getD i 0 :: (d.drop (i + 1)).filter (· ≠ 0) := by
  simp only [List.getD_eq_getElem?_getD, List.getElem?_eq_getElem hi, Option.getD_some] at h ⊢
  rw [List.drop_eq_getElem_cons hi, List.filter_cons_of_pos (by simpa using h)]

/-- The loop that puts the non-zero bytes back, for a bitset that marks the non-zero bytes of `d` and an input that
holds them from `ptr` on: it rebuilds `d` and uses exactly those bytes. The induction is on the bits left, with the
target holding the bytes of `d` before the current bit. -/
theorem distributeLoop_spec {d data bits : List UInt8}
    (hbits : ∀ p, bitAt bits p = decide (p < d.length ∧ d.getD p 0 ≠ 0)) (k : Nat) :
    ∀ i ptr rest, d.length ≤ i + k → data.drop ptr = (d.drop i).filter (· ≠ 0) ++ rest →
      distributeLoop data bits i k ptr (decodedUpTo d i) = .ok (d, ptr + ((d.drop i).filter (· ≠ 0)).length) := by
  induction k with
  | zero =>
    intro i ptr rest hi _
    rw [distributeLoop, decodedUpTo_of_le (by omega), List.drop_eq_nil_of_le (by omega)]
    rfl
  | succ k ih =>
    intro i ptr rest hi hdata
    have hbit : (bits.getD (i / 8) 0 &&& bitMask i ≠ 0) ↔ i < d.length ∧ d.getD i 0 ≠ 0 := by
      have h := hbits i
      rw [bitAt] at h
      rw [and_bitMask_ne_zero, h, decide_eq_true_iff]
    rw [distributeLoop]
    by_cases hset : i < d.length ∧ d.getD i 0 ≠ 0
    · -- a set bit: the next input byte is the byte of `d` at `i`
      obtain ⟨hlt, hne⟩ := hset
      rw [filter_drop_of_ne hlt hne] at hdata ⊢
      have hptr : ptr < data.length := by
        by_contra hle
        rw [List.drop_eq_nil_of_le (by omega)] at hdata
        simp at hdata
      have hbyte : data.getD ptr 0 = d.getD i 0 := by
        rw [List.drop_eq_getElem_cons hptr, List.cons_append, List.cons.injEq] at hdata
        simp only [List.getD_eq_getElem?_getD, List.getElem?_eq_getElem hptr, Option.getD_some]
        rw [hdata.1]
        simp [List.getElem?_eq_getElem hlt]
      have hrest : data.drop (ptr + 1) = (d.drop (i + 1)).filter (· ≠ 0) ++ rest := by
        rw [← List.drop_drop, hdata]
        rfl
      rw [if_pos (hbit.mpr ⟨hlt, hne⟩), if_neg (by omega), if_neg (by rw [length_decodedUpTo]; omega),
        if_neg (by rw [hbyte]; exact hne), hbyte, decodedUpTo_set, ih (i + 1) (ptr + 1) rest (by omega) hrest,
        List.length_cons]
      congr 2
      omega
    · -- a clear bit: the byte of `d` at `i` is zero, already in the target
      have hzero : d.getD i 0 = 0 := by
        by_contra hne
        exact hset ⟨by by_contra hle; exact hne (List.getD_eq_default _ _ (by omega)), hne⟩
      rw [if_neg (mt hbit.mp hset), ← decodedUpTo_succ_of_zero hzero, filter_drop_of_zero hzero]
      rw [filter_drop_of_zero hzero] at hdata
      exact ih (i + 1) ptr rest (by omega) hdata


theorem length_distributeLoop {data bits : List UInt8} (k : Nat) :
    ∀ {i ptr decomp out size}, distributeLoop data bits i k ptr decomp = .ok (out, size) →
      out.length = decomp.length := by
  induction k with
  | zero =>
    intro i ptr decomp out size h
    cases h
    rfl
  | succ k ih =>
    intro i ptr decomp out size h
    rw [distributeLoop] at h
    split_ifs at h
    · rw [ih h, List.length_set]
    · exact ih h

/-! ## The bitset of a string -/

/-- The bitset `bitsetEncodeBytes` builds for `d` before it compresses it in turn. -/
def nonZeroBitset (d : List UInt8) : List UInt8 := (encodeLoop d 0 (List.replicate ((d.length + 7) / 8) 0) []).1

theorem length_nonZeroBitset (d : List UInt8) : (nonZeroBitset d).length = (d.length + 7) / 8 := by
  rw [nonZeroBitset, length_encodeLoop_fst, List.length_replicate]

/-- The bitset holds exactly the positions of the non-zero bytes. -/
theorem bitAt_nonZeroBitset (d : List UInt8) (p : Nat) :
    bitAt (nonZeroBitset d) p = decide (p < d.length ∧ d.getD p 0 ≠ 0) := by
  rw [nonZeroBitset, (encodeLoop_spec d 0 _ [] (by rw [List.length_replicate]; omega)).2, bitAt_replicate_zero, Bool.false_or]
  simp

theorem nonZeroBytes_eq (d : List UInt8) :
    (encodeLoop d 0 (List.replicate ((d.length + 7) / 8) 0) []).2 = d.filter (· ≠ 0) := by
  rw [(encodeLoop_spec d 0 _ [] (by rw [List.length_replicate]; omega)).1, List.nil_append]

/-- A string with a non-zero byte has a bitset with a non-zero byte. -/
theorem filter_nonZeroBitset_ne_nil {d : List UInt8} (h : d.filter (· ≠ 0) ≠ []) :
    (nonZeroBitset d).filter (· ≠ 0) ≠ [] := by
  obtain ⟨b, hb⟩ := List.exists_mem_of_ne_nil _ h
  obtain ⟨hmem, hne⟩ := List.mem_filter.mp hb
  obtain ⟨p, hp, rfl⟩ := List.getElem_of_mem hmem
  have hbit := bitAt_nonZeroBitset d p
  rw [List.getD_eq_getElem _ _ hp, decide_eq_true (⟨hp, by simpa using hne⟩ : _ ∧ _)] at hbit
  -- the byte holding a set bit is not zero
  have hbyte : (nonZeroBitset d).getD (p / 8) 0 ≠ 0 := by
    intro hz
    rw [bitAt, hz] at hbit
    simp at hbit
  have hlt : p / 8 < (nonZeroBitset d).length := by
    by_contra hle
    exact hbyte (List.getD_eq_default _ _ (by omega))
  rw [List.getD_eq_getElem _ _ hlt] at hbyte
  exact List.ne_nil_of_mem (List.mem_filter.mpr ⟨List.getElem_mem hlt, by simpa using hbyte⟩)

/-! ## One level of each recursion -/

theorem bitsetEncodeBytes_of_two_le {d : List UInt8} (h : 2 ≤ d.length) (hnz : d.filter (· ≠ 0) ≠ []) :
    bitsetEncodeBytes d = bitsetEncodeBytes (nonZeroBitset d) ++ d.filter (· ≠ 0) := by
  rw [bitsetEncodeBytes, if_neg (by omega), if_neg (by omega)]
  dsimp only
  rw [nonZeroBytes_eq, if_neg (by simpa using hnz)]
  rfl

theorem bitsetEncodeBytes_of_filter_eq_nil {d : List UInt8} (h : d.filter (· ≠ 0) = []) : bitsetEncodeBytes d = [] := by
  rw [bitsetEncodeBytes]
  split_ifs with h₀ h₁ h₂
  · rfl
  · rfl
  · -- the one byte is zero
    obtain ⟨b, rfl⟩ := List.length_eq_one_iff.mp h₁
    have hb : b = 0 := by simpa using h
    exact absurd hb h₂
  · dsimp only
    rw [nonZeroBytes_eq, h]
    rfl

theorem bitsetDecodePartialBytes_of_two_le {data : List UInt8} {target : Nat} (h : 2 ≤ target) (hd : data ≠ []) :
    bitsetDecodePartialBytes data target =
      match bitsetDecodePartialBytes data ((target + 7) / 8) with
      | .error e => .error e
      | .ok (nonZeroBitset, ptr) =>
        distributeLoop data nonZeroBitset 0 (8 * nonZeroBitset.length) ptr (List.replicate target 0) := by
  rw [bitsetDecodePartialBytes, if_neg (by omega), if_neg (by simpa using hd), if_neg (by omega)]
  -- the statement's `match` and the definition's differ at most in their auxiliary matchers
  all_goals rfl

/-- The output of the partial decoder always has the target's length. -/
theorem length_of_bitsetDecodePartialBytes {data : List UInt8} {target : Nat} {out : List UInt8} {size : Nat}
    (h : bitsetDecodePartialBytes data target = .ok (out, size)) : out.length = target := by
  rw [bitsetDecodePartialBytes] at h
  split_ifs at h with h₀ h₁ h₂ h₃
  · cases h
    simp [h₀]
  · cases h
    exact List.length_replicate
  · cases h
    rw [List.length_set, List.length_replicate]
  · cases h
    rw [List.length_set, List.length_replicate]
  · split at h
    · cases h
    · rw [length_distributeLoop _ h, List.length_replicate]


/-! ## The round trip -/

/-- The partial decoder reads back what the encoder wrote for a string with a non-zero byte, whatever follows it,
and uses exactly the encoder's bytes. The induction is on the length of the string, down to its bitset. -/
theorem bitsetDecodePartialBytes_encode (n : Nat) :
    ∀ d : List UInt8, d.length = n → d.filter (· ≠ 0) ≠ [] → ∀ rest,
      bitsetDecodePartialBytes (bitsetEncodeBytes d ++ rest) d.length = .ok (d, (bitsetEncodeBytes d).length) := by
  induction n using Nat.strong_induction_on with
  | _ n ih =>
    intro d hn hnz rest
    rcases d with _ | ⟨b, _ | ⟨b₂, bs⟩⟩
    · simp at hnz
    · -- a single non-zero byte is written as itself
      have hb : b ≠ 0 := by simpa using hnz
      have henc : bitsetEncodeBytes [b] = [b] := by
        rw [bitsetEncodeBytes, if_neg (by simp), if_pos (by simp), List.headD_cons, if_neg hb]
      rw [henc, bitsetDecodePartialBytes, if_neg (by simp), if_neg (by simp), if_pos (by simp)]
      simp [hb]
    · -- two bytes or more: the bitset first, then the non-zero bytes
      generalize hd : b :: b₂ :: bs = d at hn hnz ⊢
      have h2 : 2 ≤ d.length := by rw [← hd]; simp
      have hB := filter_nonZeroBitset_ne_nil hnz
      have hBlen := length_nonZeroBitset d
      have hrec := ih _ (by omega) (nonZeroBitset d) rfl hB (d.filter (· ≠ 0) ++ rest)
      have hdist := @distributeLoop_spec d (bitsetEncodeBytes (nonZeroBitset d) ++ (d.filter (· ≠ 0) ++ rest))
        (nonZeroBitset d) (bitAt_nonZeroBitset d) (8 * (nonZeroBitset d).length) 0
        (bitsetEncodeBytes (nonZeroBitset d)).length rest (by omega) (by rw [List.drop_left, List.drop_zero])
      rw [bitsetEncodeBytes_of_two_le h2 hnz, List.append_assoc, bitsetDecodePartialBytes_of_two_le h2
        (List.append_ne_nil_of_right_ne_nil _ (List.append_ne_nil_of_left_ne_nil hnz _)),
        ← hBlen, hrec]
      dsimp only
      rw [← decodedUpTo_zero, hdist, List.drop_zero, List.length_append]

/-- `bitsetDecodeBytes` undoes `bitsetEncodeBytes`, for every string. -/
theorem bitsetDecodeBytes_encode (d : List UInt8) : bitsetDecodeBytes (bitsetEncodeBytes d) d.length = .ok d := by
  have hpartial : bitsetDecodePartialBytes (bitsetEncodeBytes d) d.length = .ok (d, (bitsetEncodeBytes d).length) := by
    by_cases hnz : d.filter (· ≠ 0) = []
    · -- a string of zeros is written as nothing and read back as zeros
      have hzero : d = List.replicate d.length 0 := by
        rw [List.eq_replicate_iff]
        refine ⟨rfl, fun b hb => ?_⟩
        by_contra hne
        exact List.ne_nil_of_mem (List.mem_filter.mpr ⟨hb, by simpa using hne⟩) hnz
      rw [bitsetEncodeBytes_of_filter_eq_nil hnz, bitsetDecodePartialBytes]
      by_cases h₀ : d.length = 0
      · rw [if_pos h₀, List.eq_nil_of_length_eq_zero h₀]
        rfl
      · rw [if_neg h₀, if_pos List.length_nil, ← hzero]
        rfl
    · simpa using bitsetDecodePartialBytes_encode _ d rfl hnz []
  rw [bitsetDecodeBytes, hpartial]
  dsimp only
  rw [if_neg (not_not.mpr rfl)]

end Etherzero.Bitutil
