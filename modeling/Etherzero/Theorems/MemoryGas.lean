import Mathlib
import Etherzero.Vm.Memory

/-!
# Memory gas below and above the overflow guard

Over unbounded integers a memory of `w` words costs `C(w) = 3 * w + w * w / 512`. Below `2 ^ 37 - 32` bytes, where a
size has fewer than `2 ^ 32` words, no product of `memoryGasCost` leaves `uint64`, and the fee is `C` of the new size
less `C` of the old, with the new total kept. The guard of `memoryGasCost` admits sizes up to `0xffffffffe0` bytes,
that is up to `2 ^ 35 - 1` words, whose square does not fit in `uint64`: at `2 ^ 37` bytes the square wraps to 0 and the
fee is the linear part alone.
-/

namespace Etherzero.Vm

/-- The words of a size, rounded up, over unbounded integers. -/
def wordSize (size : Nat) : Nat := (size + 31) / 32

/-- The cost of a memory of `w` words, over unbounded integers. -/
def memoryCost (w : Nat) : Nat := MemoryGas * w + w * w / QuadCoeffDiv

theorem memoryCost_mono {w₁ w₂ : Nat} (h : w₁ ≤ w₂) : memoryCost w₁ ≤ memoryCost w₂ := by
  unfold memoryCost
  have hsq : w₁ * w₁ ≤ w₂ * w₂ := Nat.mul_le_mul h h
  have hquad : w₁ * w₁ / QuadCoeffDiv ≤ w₂ * w₂ / QuadCoeffDiv := Nat.div_le_div_right hsq
  unfold MemoryGas
  omega

/-- Fewer than `2 ^ 32` words cost less than `2 ^ 64`. -/
theorem memoryCost_lt {w : Nat} (h : w < 2 ^ 32) : memoryCost w < 2 ^ 64 := by
  unfold memoryCost MemoryGas QuadCoeffDiv
  have hsq : w * w ≤ (2 ^ 32 - 1) * (2 ^ 32 - 1) := Nat.mul_le_mul (by omega) (by omega)
  omega

/-- Below `2 ^ 37 - 32` bytes, `memoryGasCost` charges the cost of the new words less the cost kept for the old ones,
and keeps the new cost. -/
theorem memoryGasCost_exact {mem : Memory} {newMemSize : Nat} (hpos : newMemSize ≠ 0)
    (hsize : newMemSize ≤ 0x1fffffffe0) (hlast : mem.lastGasCost = memoryCost (wordSize mem.len)) :
    memoryGasCost mem newMemSize =
      if mem.len < 32 * wordSize newMemSize then
        .ok (memoryCost (wordSize newMemSize) - memoryCost (wordSize mem.len),
          { mem with lastGasCost := memoryCost (wordSize newMemSize) })
      else .ok (0, mem) := by
  have hwords : toWordSize newMemSize = wordSize newMemSize := by
    rw [toWordSize, if_neg (by omega), wordSize]
  have hw : wordSize newMemSize < 2 ^ 32 := by
    unfold wordSize
    omega
  rw [memoryGasCost, if_neg hpos, if_neg (by omega), hwords]
  dsimp only
  rw [Nat.mod_eq_of_lt (by omega : wordSize newMemSize * 32 < 2 ^ 64), Nat.mul_comm (wordSize newMemSize) 32]
  split_ifs with hgrow
  · -- the memory grows: every product fits, and the old cost is at most the new
    have hold : wordSize mem.len ≤ wordSize newMemSize := by
      unfold wordSize at hgrow ⊢
      omega
    have hle := memoryCost_mono hold
    have hlt := memoryCost_lt hw
    have hsq : wordSize newMemSize * wordSize newMemSize < 2 ^ 64 := by
      have := Nat.mul_le_mul (by omega : wordSize newMemSize ≤ 2 ^ 32 - 1) (by omega : wordSize newMemSize ≤ 2 ^ 32 - 1)
      omega
    have htotal : (wordSize newMemSize * MemoryGas % 2 ^ 64 +
        wordSize newMemSize * wordSize newMemSize % 2 ^ 64 / QuadCoeffDiv) % 2 ^ 64 =
        memoryCost (wordSize newMemSize) := by
      rw [Nat.mod_eq_of_lt hsq, Nat.mod_eq_of_lt (a := wordSize newMemSize * MemoryGas) (by unfold MemoryGas; omega),
        Nat.mul_comm _ MemoryGas]
      exact Nat.mod_eq_of_lt hlt
    rw [htotal, hlast]
    congr 3
    omega
  · rfl

/-- An empty memory grown to `2 ^ 37` bytes, `2 ^ 32` words, is charged `3 * 2 ^ 32` and keeps that as its cost: the
square of the words wraps to 0, while the cost over unbounded integers has `2 ^ 55` more. -/
theorem memoryGasCost_square_wraps :
    memoryGasCost ⟨0, 0⟩ (2 ^ 37) = .ok (3 * 2 ^ 32, ⟨0, 3 * 2 ^ 32⟩) ∧
      memoryCost (wordSize (2 ^ 37)) - memoryCost (wordSize 0) = 3 * 2 ^ 32 + 2 ^ 55 :=
  ⟨rfl, rfl⟩

end Etherzero.Vm
