import Mathlib

/-!
# Sparse bitset compression (common/bitutil/compress.go)

`CompressBytes` writes a byte string as the bitset of its non-zero bytes, itself compressed the same way, followed by
those bytes; it keeps the string as it is when that is not shorter. `DecompressBytes` needs the length of the string
it decompresses: a string of that length is taken as it is, a shorter one is decoded by `bitsetDecodeBytes`, which
reads the bitset first and then puts the non-zero bytes where its bits say. The bits of a bitset byte are read most
significant first. Both recursions go down to the bitset, which is shorter than the string for two bytes or more. A
Go slice is a list of bytes, and `nil` the empty list.
-/

namespace Etherzero.Bitutil

/-- The errors of decompression. -/
inductive DecompressError where
  | missingData
  | unreferencedData
  | exceededTarget
  | zeroContent
  deriving DecidableEq, Repr

/-- The mask `1 << byte(7 - i % 8)` of position `i` in its bitset byte. -/
def bitMask (i : Nat) : UInt8 := 1 <<< UInt8.ofNat (7 - i % 8)

/-- The loop of `bitsetEncodeBytes` from position `i`: each non-zero byte sets its bit and is gathered. -/
def encodeLoop : List UInt8 → Nat → List UInt8 → List UInt8 → List UInt8 × List UInt8
  | [], _, nonZeroBitset, nonZeroBytes => (nonZeroBitset, nonZeroBytes)
  | b :: bs, i, nonZeroBitset, nonZeroBytes =>
    if b ≠ 0 then encodeLoop bs (i + 1) (nonZeroBitset.modify (i / 8) (· ||| bitMask i)) (nonZeroBytes ++ [b])
    else encodeLoop bs (i + 1) nonZeroBitset nonZeroBytes

theorem length_encodeLoop_fst (data : List UInt8) (i : Nat) (nonZeroBitset nonZeroBytes : List UInt8) :
    (encodeLoop data i nonZeroBitset nonZeroBytes).1.length = nonZeroBitset.length := by
  induction data generalizing i nonZeroBitset nonZeroBytes with
  | nil => rfl
  | cons b bs ih =>
    rw [encodeLoop]
    split
    · rw [ih, List.length_modify]
    · rw [ih]

/-- `bitsetEncodeBytes`. -/
def bitsetEncodeBytes (data : List UInt8) : List UInt8 :=
  if data.length = 0 then []
  else if data.length = 1 then (if data.headD 0 = 0 then [] else data)
  else
    let r := encodeLoop data 0 (List.replicate ((data.length + 7) / 8) 0) []
    if r.2.length = 0 then [] else bitsetEncodeBytes r.1 ++ r.2
termination_by data.length
decreasing_by
  rw [length_encodeLoop_fst, List.length_replicate]
  omega

/-- `CompressBytes`. -/
def compressBytes (data : List UInt8) : List UInt8 :=
  let out := bitsetEncodeBytes data
  if out.length < data.length then out else data

/-- The loop of `bitsetDecodePartialBytes` from bit `i`, with `k` bits of the bitset left: each set bit takes the next
input byte, which must exist, fall inside the target and not be zero. -/
def distributeLoop (data nonZeroBitset : List UInt8) :
    Nat → Nat → Nat → List UInt8 → Except DecompressError (List UInt8 × Nat)
  | _, 0, ptr, decomp => .ok (decomp, ptr)
  | i, k + 1, ptr, decomp =>
    if nonZeroBitset.getD (i / 8) 0 &&& bitMask i ≠ 0 then
      if ptr ≥ data.length then .error .missingData
      else if i ≥ decomp.length then .error .exceededTarget
      else if data.getD ptr 0 = 0 then .error .zeroContent
      else distributeLoop data nonZeroBitset (i + 1) k (ptr + 1) (decomp.set i (data.getD ptr 0))
    else distributeLoop data nonZeroBitset (i + 1) k ptr decomp

/-- `bitsetDecodePartialBytes`: the decompressed bytes and how many input bytes they used. -/
def bitsetDecodePartialBytes (data : List UInt8) (target : Nat) : Except DecompressError (List UInt8 × Nat) :=
  if target = 0 then .ok ([], 0)
  else
    let decomp := List.replicate target 0
    if data.length = 0 then .ok (decomp, 0)
    else if target = 1 then
      let decomp := decomp.set 0 (data.getD 0 0)
      if data.getD 0 0 ≠ 0 then .ok (decomp, 1) else .ok (decomp, 0)
    else
      match bitsetDecodePartialBytes data ((target + 7) / 8) with
      | .error e => .error e
      | .ok (nonZeroBitset, ptr) => distributeLoop data nonZeroBitset 0 (8 * nonZeroBitset.length) ptr decomp
termination_by target
decreasing_by omega

/-- `bitsetDecodeBytes`: every input byte must be used. -/
def bitsetDecodeBytes (data : List UInt8) (target : Nat) : Except DecompressError (List UInt8) :=
  match bitsetDecodePartialBytes data target with
  | .error e => .error e
  | .ok (out, size) => if size ≠ data.length then .error .unreferencedData else .ok out

/-- `DecompressBytes` for a target size that is not negative. -/
def decompressBytes (data : List UInt8) (target : Nat) : Except DecompressError (List UInt8) :=
  if data.length > target then .error .exceededTarget
  else if data.length = target then .ok data
  else bitsetDecodeBytes data target

end Etherzero.Bitutil
