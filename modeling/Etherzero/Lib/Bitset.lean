import Mathlib

/-!
# Bitsets in bytes

A list of bytes read as a set of positions, eight to a byte and the most significant bit first, as bitmaps are laid
out in Go code: position `p` is bit `7 - p % 8` of byte `p / 8`, and a byte past the end reads as zero. Writing a
mask into one byte with `|||` adds the mask's bits of that byte and changes no other byte.
-/

namespace Etherzero.Bitset

/-- Whether the bitset holds position `p`. -/
def bitAt (bits : List UInt8) (p : Nat) : Bool := (bits.getD (p / 8) 0).toNat.testBit (7 - p % 8)

theorem testBit_or (a m : UInt8) (j : Nat) : (a ||| m).toNat.testBit j = (a.toNat.testBit j || m.toNat.testBit j) := by
  rw [UInt8.toNat_or, Nat.testBit_or]

theorem getD_modify_or (bits : List UInt8) {i : Nat} (hi : i < bits.length) (j : Nat) (m : UInt8) :
    (bits.modify i (· ||| m)).getD j 0 = if j = i then bits.getD j 0 ||| m else bits.getD j 0 := by
  by_cases hj : j < bits.length
  · simp only [List.getD_eq_getElem?_getD, List.getElem?_modify, List.getElem?_eq_getElem hj, Option.map_eq_map,
      Option.map_some, Option.getD_some]
    split_ifs <;> first | rfl | omega
  · -- past the end both read the default, and the write is not there
    have hj' : j ≠ i := by omega
    simp only [List.getD_eq_getElem?_getD, List.getElem?_modify, List.getElem?_eq_none (by omega : bits.length ≤ j),
      if_neg hj']
    rfl

/-- A mask written into byte `i` adds its own bits at the positions of that byte. -/
theorem bitAt_modify_or {bits : List UInt8} {i : Nat} (hi : i < bits.length) (m : UInt8) (p : Nat) :
    bitAt (bits.modify i (· ||| m)) p = (bitAt bits p || (p / 8 == i && m.toNat.testBit (7 - p % 8))) := by
  rw [bitAt, bitAt, getD_modify_or _ hi]
  split_ifs with hp <;> simp [hp]

@[simp] theorem bitAt_replicate_zero (n p : Nat) : bitAt (List.replicate n 0) p = false := by
  rw [bitAt, List.getD_eq_getElem?_getD, List.getElem?_replicate]
  split <;> simp

end Etherzero.Bitset
