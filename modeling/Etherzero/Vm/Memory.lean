import Mathlib

/-!
# The gas of memory expansion (gas_table.go, common.go, memory.go)

Memory grows in words of 32 bytes, and a memory of `w` words costs `3 * w + w * w / 512` in all. `memoryGasCost`
charges, for a size the memory is to grow to, the cost of the new size less the cost of the old one, which the memory
keeps as `lastGasCost`. It computes in `uint64`: a size above `0xffffffffe0` is refused as an overflow, and below it
each product is taken modulo `2 ^ 64`, as Go's arithmetic does. The memory's bytes are left out; only their number is
kept.
-/

namespace Etherzero.Vm

/-- `params.MemoryGas`. -/
def MemoryGas : Nat := 3

/-- `params.QuadCoeffDiv`. -/
def QuadCoeffDiv : Nat := 512

/-- `errGasUintOverflow`. -/
inductive GasErr where
  | gasUintOverflow
  deriving DecidableEq, Repr

/-- The part of `Memory` that gas reads: the length of its store, and the cost of that length. -/
structure Memory where
  len : Nat
  lastGasCost : Nat
  deriving DecidableEq, Repr

/-- `Resize`: grow the store to `size` bytes when it is shorter. -/
def Memory.resize (m : Memory) (size : Nat) : Memory :=
  if m.len < size then { m with len := size } else m

/-- `toWordSize`: the words of `size` bytes, rounded up, in `uint64`. -/
def toWordSize (size : Nat) : Nat :=
  if size > 2 ^ 64 - 1 - 31 then (2 ^ 64 - 1) / 32 + 1 else (size + 31) / 32

/-- `memoryGasCost`: the fee for growing the memory to `newMemSize` bytes, and the memory with the new total cost. -/
def memoryGasCost (mem : Memory) (newMemSize : Nat) : Except GasErr (Nat × Memory) :=
  if newMemSize = 0 then .ok (0, mem)
  else if newMemSize > 0xffffffffe0 then .error .gasUintOverflow
  else
    let newMemSizeWords := toWordSize newMemSize
    let newMemSize := newMemSizeWords * 32 % 2 ^ 64
    if newMemSize > mem.len then
      let square := newMemSizeWords * newMemSizeWords % 2 ^ 64
      let linCoef := newMemSizeWords * MemoryGas % 2 ^ 64
      let quadCoef := square / QuadCoeffDiv
      let newTotalFee := (linCoef + quadCoef) % 2 ^ 64
      -- `uint64` subtraction: `lastGasCost` is a `uint64`
      let fee := (newTotalFee + 2 ^ 64 - mem.lastGasCost) % 2 ^ 64
      .ok (fee, { mem with lastGasCost := newTotalFee })
    else .ok (0, mem)

end Etherzero.Vm
