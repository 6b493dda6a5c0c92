import Mathlib
import Etherzero.Types.Signing

/-!
# What each signer puts into V, and what recovery gives back

The byte arithmetic of `SignatureValues` does not wrap for a recovery id of 0 or 1, so V is 27 or 28 without a chain
id and 35 + 2 * chainId + recovery id with one; `deriveChainId` and the subtraction in `Sender` then give back the
chain id and 27 + recovery id. `recoverPlain` of those values rebuilds the signature `Sign` returned, given that it is
a valid one.
-/

namespace Etherzero.Types

open Etherzero.Rlp

variable {Key : Type}

/-- What the claims about signing assume of secp256k1: `Sign` returns [R || S || V] with values that
`ValidateSignatureValues` accepts after Homestead (so V is 0 or 1 and S is in the lower half), and `Ecrecover` of that
signature gives back the signer's public key, which is uncompressed. -/
structure Crypto.Inverse (cr : Crypto Key) : Prop where
  sign_ok : ∀ h k, ∃ r s : Nat, ∃ b : UInt8, validateSignatureValues b r s true ∧
    cr.sign h k = .ok (beFixed 32 r ++ beFixed 32 s ++ [b]) ∧
    cr.ecrecover h (beFixed 32 r ++ beFixed 32 s ++ [b]) = .ok (cr.fromECDSAPub k)
  pub_head : ∀ k, (cr.fromECDSAPub k).head? = some 4

/-! ## The values of a signature -/

theorem recoveryId_of_valid {b : UInt8} {r s : Nat} {homestead : Bool} (h : validateSignatureValues b r s homestead) :
    b = 0 ∨ b = 1 := by
  unfold validateSignatureValues at h
  split_ifs at h
  simp only [decide_eq_true_eq] at h
  exact h.2.2

theorem lt_secp256k1N {b : UInt8} {r s : Nat} {homestead : Bool} (h : validateSignatureValues b r s homestead) :
    r < secp256k1N ∧ s < secp256k1N := by
  unfold validateSignatureValues at h
  split_ifs at h
  simp only [decide_eq_true_eq] at h
  exact ⟨h.1, h.2.1⟩

/-- Frontier's check is Homestead's without the bound on S. -/
theorem validateSignatureValues_frontier {b : UInt8} {r s : Nat} (h : validateSignatureValues b r s true) :
    validateSignatureValues b r s false := by
  unfold validateSignatureValues at h ⊢
  split_ifs at h ⊢ with h₁ h₂ <;> simp_all

/-- Adding to a recovery id of 0 or 1 does not wrap. -/
theorem toNat_add_recoveryId {b c : UInt8} (hb : b = 0 ∨ b = 1) (hc : c.toNat < 255) :
    (b + c).toNat = b.toNat + c.toNat := by
  rw [UInt8.toNat_add]
  rcases hb with rfl | rfl
  · simp
  · simp only [UInt8.reduceToNat]
    omega

/-- A signature rebuilt from its values: R and S below `2 ^ 256` in 32 bytes each, then the recovery id. -/
theorem signature_parts {r s : Nat} (b : UInt8) (hr : r < 256 ^ 32) (hs : s < 256 ^ 32) :
    let sig := beFixed 32 r ++ beFixed 32 s ++ [b]
    sig.length = 65 ∧ beValue (sig.take 32) = r ∧ beValue ((sig.drop 32).take 32) = s ∧ sig.getD 64 0 = b := by
  intro sig
  have hsplit : sig = beFixed 32 r ++ (beFixed 32 s ++ [b]) := List.append_assoc ..
  refine ⟨by simp [sig], ?_, ?_, ?_⟩
  · rw [hsplit, List.take_left' (length_beFixed 32 r), beValue_beFixed, Nat.mod_eq_of_lt hr]
  · rw [hsplit, List.drop_left' (length_beFixed 32 r), List.take_left' (length_beFixed 32 s), beValue_beFixed,
      Nat.mod_eq_of_lt hs]
  · simp [sig, List.getD_eq_getElem?_getD]

theorem frontierSignatureValues_eq {sig : List UInt8} (hlen : sig.length = 65) :
    frontierSignatureValues sig =
      .ok (beValue (sig.take 32), beValue ((sig.drop 32).take 32), (sig.getD 64 0 + 27).toNat) := by
  rw [frontierSignatureValues, if_neg (by omega), beValue_singleton]

/-- With a chain id, V is 35 + recovery id + twice the chain id. -/
theorem signatureValues_eip155 {chainId : Nat} (hc : chainId ≠ 0) {sig : List UInt8} (hlen : sig.length = 65)
    (hb : sig.getD 64 0 = 0 ∨ sig.getD 64 0 = 1) :
    (Signer.eip155 chainId).signatureValues sig =
      .ok (beValue (sig.take 32), beValue ((sig.drop 32).take 32), (sig.getD 64 0).toNat + 35 + 2 * chainId) := by
  rw [Signer.signatureValues, frontierSignatureValues_eq hlen]
  show (if chainId ≠ 0 then pure (_, _, (sig.getD 64 0 + 35).toNat + 2 * chainId) else pure _) = _
  rw [if_pos hc, toNat_add_recoveryId hb (by decide)]
  rfl

/-- Without a chain id, V is 27 + recovery id, for the EIP-155 signer of chain 0 and for Homestead's and Frontier's. -/
theorem signatureValues_unprotected {signer : Signer}
    (hs : signer = .eip155 0 ∨ signer = .homestead ∨ signer = .frontier) {sig : List UInt8} (hlen : sig.length = 65)
    (hb : sig.getD 64 0 = 0 ∨ sig.getD 64 0 = 1) :
    signer.signatureValues sig =
      .ok (beValue (sig.take 32), beValue ((sig.drop 32).take 32), (sig.getD 64 0).toNat + 27) := by
  have hv := toNat_add_recoveryId hb (c := 27) (by decide)
  rcases hs with rfl | rfl | rfl
  · rw [Signer.signatureValues, frontierSignatureValues_eq hlen, hv]
    rfl
  · rw [Signer.signatureValues, frontierSignatureValues_eq hlen, hv]
    rfl
  · rw [Signer.signatureValues, frontierSignatureValues_eq hlen, hv]
    rfl

theorem isProtectedV_of_lt {v : Nat} (h : 28 < v) : isProtectedV v := by
  unfold isProtectedV
  split <;> simp; omega

theorem isProtectedV_of_le_28 {v : Nat} (h₁ : 27 ≤ v) (h₂ : v ≤ 28) : isProtectedV v = false := by
  unfold isProtectedV
  rw [if_pos (by omega)]
  simp; omega

/-- `deriveChainId` gives back the chain id of 35 + recovery id + twice it, on both sides of the 64-bit boundary. -/
theorem deriveChainId_eip155 (chainId : Nat) {b : Nat} (hb : b ≤ 1) : deriveChainId (b + 35 + 2 * chainId) = chainId := by
  have h64 : (2 : Nat) ^ 64 = 18446744073709551616 := by norm_num
  unfold deriveChainId
  rw [h64]
  split
  · rw [if_neg (by omega)]
    omega
  · omega

/-! ## Recovery -/

/-- No signer's hash reads the signature values. -/
theorem hash_withSignature (cr : Crypto Key) (signer : Signer) (tx : TxData) (r s v : Nat) :
    signer.hash cr { tx with r := r, s := s, v := v } = signer.hash cr tx := by
  cases signer <;> rfl

/-- `recoverPlain` of 27 + recovery id and a valid signature's values hands `Ecrecover` the signature back. -/
theorem recoverPlain_eq (cr : Crypto Key) {h : Hash} {r s : Nat} {b : UInt8} {homestead : Bool}
    (hval : validateSignatureValues b r s homestead) {pub : List UInt8}
    (hrec : cr.ecrecover h (beFixed 32 r ++ beFixed 32 s ++ [b]) = .ok pub) (hpub : pub.head? = some 4) :
    recoverPlain cr h r s (b.toNat + 27 : Nat) homestead = .ok (pubkeyToAddress cr pub) := by
  have hb := recoveryId_of_valid hval
  have hid : (UInt64.ofNat (b.toNat + 27) - 27).toUInt8 = b := by
    rcases hb with rfl | rfl <;> rfl
  have hlen : pub.length ≠ 0 := by
    intro h0
    rw [List.length_eq_zero_iff.mp h0] at hpub
    cases hpub
  unfold recoverPlain
  rw [Int.natAbs_natCast, if_neg (by rcases hb with rfl | rfl <;> decide)]
  simp only [hid, hval, Bool.not_true, hrec]
  simp [hlen, hpub]

end Etherzero.Types
