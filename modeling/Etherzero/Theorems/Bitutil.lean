import Mathlib
import Etherzero.Lemmas.Bitutil

/-!
# The compression round trip

`DecompressBytes` undoes `CompressBytes` given the original length, the compressed string is never longer, whatever
`DecompressBytes` returns has the target's length, and `bitsetDecodeBytes` undoes `bitsetEncodeBytes` on every string,
in particular when the encoding is the shorter one that `CompressBytes` keeps.
-/

namespace Etherzero.Bitutil

/-- The output of `DecompressBytes` has the target's length. -/
theorem length_of_decompressBytes {c : List UInt8} {n : Nat} {out : List UInt8} (h : decompressBytes c n = .ok out) :
    out.length = n := by
  unfold decompressBytes at h
  split_ifs at h with hgt heq
  · cases h
    exact heq
  · unfold bitsetDecodeBytes at h
    split at h
    · cases h
    · rename_i size hpartial
      split_ifs at h
      cases h
      exact length_of_bitsetDecodePartialBytes hpartial

/-- The sparse bitset codec of compress.go: decompressing a compressed string at its length gives it back, compression
never lengthens, decompression gives the target's length or fails, and the bitset decoder undoes the bitset encoder
when the encoding is shorter. -/
theorem compress_round_trip :
    (∀ d, decompressBytes (compressBytes d) d.length = .ok d) ∧
      (∀ d, (compressBytes d).length ≤ d.length) ∧
      (∀ c n out, decompressBytes c n = .ok out → out.length = n) ∧
      (∀ d, (bitsetEncodeBytes d).length < d.length → bitsetDecodeBytes (bitsetEncodeBytes d) d.length = .ok d) := by
  refine ⟨fun d => ?_, fun d => ?_, fun c n out h => length_of_decompressBytes h, fun d _ => bitsetDecodeBytes_encode d⟩
  · unfold compressBytes
    dsimp only
    split_ifs with hshort
    · -- the encoding is kept and decoded by the bitset decoder
      rw [decompressBytes, if_neg (by omega), if_neg (by omega), bitsetDecodeBytes_encode]
    · -- the string is kept as it is
      rw [decompressBytes, if_neg (by omega), if_pos rfl]
  · unfold compressBytes
    dsimp only
    split_ifs with hshort
    · exact hshort.le
    · exact le_rfl

end Etherzero.Bitutil
