import Mathlib
import Etherzero.Lemmas.Hexutil

/-!
# The hex quantity codec

`DecodeBig` accepts exactly the quantities and returns the value of their digits, on either platform (a word of 16 or
8 nibbles, or any positive number of them); what `EncodeBig` writes for a number below 2^256, and what `EncodeUint64`
writes for any uint64, decodes to that number.
-/

namespace Etherzero.Hexutil

/-- The codec of hexutil.go for words of `bigWordNibbles` nibbles: `DecodeBig` succeeds exactly on the quantities,
with their value, and undoes `EncodeBig` below 2^256; `DecodeUint64` undoes `EncodeUint64`. -/
theorem quantity_codec {bigWordNibbles : Nat} (hn : 0 < bigWordNibbles) :
    (∀ s x, decodeBig bigWordNibbles s = .ok x ↔ IsQuantity s x) ∧
      (∀ x, x < 2 ^ 256 → decodeBig bigWordNibbles (encodeBig x) = .ok x) ∧
      (∀ i : UInt64, decodeUint64 (encodeUint64 i) = .ok i.toNat) := by
  refine ⟨fun s x => decodeBig_iff_isQuantity hn, fun x hx => ?_, decodeUint64_encodeUint64⟩
  exact (decodeBig_iff_isQuantity hn).mpr (isQuantity_encodeBig hx)

/-- On a 64-bit platform, where a word holds 16 nibbles. -/
theorem quantity_codec_word64 :
    0 < 16 ∧ ((∀ s x, decodeBig 16 s = .ok x ↔ IsQuantity s x) ∧
      (∀ x, x < 2 ^ 256 → decodeBig 16 (encodeBig x) = .ok x) ∧
      (∀ i : UInt64, decodeUint64 (encodeUint64 i) = .ok i.toNat)) :=
  ⟨by decide, quantity_codec (by decide)⟩

end Etherzero.Hexutil
