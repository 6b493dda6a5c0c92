import Mathlib
import Etherzero.Lemmas.Signing

/-!
# EIP-155 signatures round-trip

For a chain id that is not zero, the V the EIP-155 signer stores is protected, `deriveChainId` gives the chain id back
and `Sender` hands recovery 27 + recovery id; without a chain id, and for the Homestead and Frontier signers, V is that
27 + recovery id and is not protected. For every secp256k1 whose `Sign` and `Ecrecover` are inverse, `Sender` then
gives back the signer's address, and a transaction signed for one chain is rejected by the signer of another. The
EIP-155 signer of chain 0 is the exception to the round trip: it signs its own hash, which has the chain id in it, but
its transactions are not protected and `Sender` recovers them from Homestead's hash.
-/

namespace Etherzero.Types

open Etherzero.Rlp

variable {Key : Type}

/-- The values of the EIP-155 signer with a chain id. -/
theorem eip155_signatureValues_v {chainId : Nat} (hc : chainId ≠ 0) {sig : List UInt8} (hlen : sig.length = 65)
    (hb : sig.getD 64 0 = 0 ∨ sig.getD 64 0 = 1) :
    ∃ r s v, (Signer.eip155 chainId).signatureValues sig = .ok (r, s, v) ∧ isProtectedV v ∧
      deriveChainId v = chainId ∧ (v : Int) - 2 * chainId - 8 = 27 + (sig.getD 64 0).toNat := by
  have hb' : (sig.getD 64 0).toNat ≤ 1 := by rcases hb with h | h <;> rw [h] <;> decide
  refine ⟨_, _, _, signatureValues_eip155 hc hlen hb, isProtectedV_of_lt (by omega), deriveChainId_eip155 chainId hb',
    by push_cast; ring⟩

/-- The values of the unprotected signers. -/
theorem unprotected_signatureValues_v {signer : Signer}
    (hs : signer = .eip155 0 ∨ signer = .homestead ∨ signer = .frontier) {sig : List UInt8} (hlen : sig.length = 65)
    (hb : sig.getD 64 0 = 0 ∨ sig.getD 64 0 = 1) :
    ∃ r s, signer.signatureValues sig = .ok (r, s, 27 + (sig.getD 64 0).toNat) ∧
      isProtectedV (27 + (sig.getD 64 0).toNat) = false := by
  have hb' : (sig.getD 64 0).toNat ≤ 1 := by rcases hb with h | h <;> rw [h] <;> decide
  rw [Nat.add_comm]
  exact ⟨_, _, signatureValues_unprotected hs hlen hb, isProtectedV_of_le_28 (by omega) (by omega)⟩

/-- `SignTx` stores the values the signer takes from the signature `Sign` returns, and no cached sender. -/
theorem signTx_of_sign {cr : Crypto Key} {tx : Transaction} {signer : Signer} {k : Key} {sig : List UInt8}
    {r s v : Nat} (hsign : cr.sign (signer.hash cr tx.data) k = .ok sig)
    (hv : signer.signatureValues sig = .ok (r, s, v)) :
    signTx cr tx signer k = .ok ⟨{ tx.data with r := r, s := s, v := v }, none⟩ := by
  rw [signTx, hsign]
  simp only [Transaction.withSignature, hv]
  rfl

/-- Without a cached sender, `Sender` asks the signer. -/
theorem sender_fresh (cr : Crypto Key) (signer : Signer) (tx : TxData) :
    (sender cr signer ⟨tx, none⟩).1 = signer.sender cr tx := by
  simp only [sender]
  cases signer.sender cr tx <;> rfl

section Inverse

variable {cr : Crypto Key} (hinv : cr.Inverse)
include hinv

/-- The signature `Sign` returns, read back: valid values R, S and a recovery id of 0 or 1, which `Ecrecover` takes
back to the key. -/
theorem sign_eq (h : Hash) (k : Key) :
    ∃ r s : Nat, ∃ b : UInt8, validateSignatureValues b r s true ∧ (b = 0 ∨ b = 1) ∧
      cr.sign h k = .ok (beFixed 32 r ++ beFixed 32 s ++ [b]) ∧
      cr.ecrecover h (beFixed 32 r ++ beFixed 32 s ++ [b]) = .ok (cr.fromECDSAPub k) ∧
      (beFixed 32 r ++ beFixed 32 s ++ [b]).length = 65 ∧ beValue ((beFixed 32 r ++ beFixed 32 s ++ [b]).take 32) = r ∧
      beValue (((beFixed 32 r ++ beFixed 32 s ++ [b]).drop 32).take 32) = s ∧
      (beFixed 32 r ++ beFixed 32 s ++ [b]).getD 64 0 = b := by
  obtain ⟨r, s, b, hval, hsign, hrec⟩ := hinv.sign_ok h k
  obtain ⟨hr, hs⟩ := lt_secp256k1N hval
  obtain ⟨hlen, hR, hS, hB⟩ := signature_parts b (hr.trans (by decide)) (hs.trans (by decide))
  exact ⟨r, s, b, hval, recoveryId_of_valid hval, hsign, hrec, hlen, hR, hS, hB⟩

/-- With a chain id, `SignTx` stores V = 35 + recovery id + twice the chain id. -/
theorem signTx_eip155 {chainId : Nat} (hc : chainId ≠ 0) (tx : Transaction) (k : Key) :
    ∃ r s : Nat, ∃ b : UInt8, validateSignatureValues b r s true ∧ (b = 0 ∨ b = 1) ∧
      cr.ecrecover ((Signer.eip155 chainId).hash cr tx.data) (beFixed 32 r ++ beFixed 32 s ++ [b]) =
        .ok (cr.fromECDSAPub k) ∧
      signTx cr tx (.eip155 chainId) k = .ok ⟨{ tx.data with r := r, s := s, v := b.toNat + 35 + 2 * chainId }, none⟩ := by
  obtain ⟨r, s, b, hval, hb, hsign, hrec, hlen, hR, hS, hB⟩ := sign_eq hinv ((Signer.eip155 chainId).hash cr tx.data) k
  have hv := signatureValues_eip155 hc hlen (by rw [hB]; exact hb)
  rw [hR, hS, hB] at hv
  exact ⟨r, s, b, hval, hb, hrec, signTx_of_sign hsign hv⟩

/-- Without a chain id, `SignTx` stores V = 27 + recovery id. -/
theorem signTx_unprotected {signer : Signer} (hs : signer = .eip155 0 ∨ signer = .homestead ∨ signer = .frontier)
    (tx : Transaction) (k : Key) :
    ∃ r s : Nat, ∃ b : UInt8, validateSignatureValues b r s true ∧ (b = 0 ∨ b = 1) ∧
      cr.ecrecover (signer.hash cr tx.data) (beFixed 32 r ++ beFixed 32 s ++ [b]) = .ok (cr.fromECDSAPub k) ∧
      signTx cr tx signer k = .ok ⟨{ tx.data with r := r, s := s, v := b.toNat + 27 }, none⟩ := by
  obtain ⟨r, s, b, hval, hb, hsign, hrec, hlen, hR, hS, hB⟩ := sign_eq hinv (signer.hash cr tx.data) k
  have hv := signatureValues_unprotected hs hlen (by rw [hB]; exact hb)
  rw [hR, hS, hB] at hv
  exact ⟨r, s, b, hval, hb, hrec, signTx_of_sign hsign hv⟩

/-- Every signer but the EIP-155 one of chain 0 recovers the address of the key that signed. -/
theorem sender_signTx (tx : Transaction) {signer : Signer} (hs : signer ≠ .eip155 0) (k : Key) :
    ∃ tx', signTx cr tx signer k = .ok tx' ∧
      (sender cr signer tx').1 = .ok (pubkeyToAddress cr (cr.fromECDSAPub k)) := by
  have hpub := hinv.pub_head k
  cases signer with
  | eip155 chainId =>
    have hc : chainId ≠ 0 := fun h => hs (by rw [h])
    obtain ⟨r, s, b, hval, hb, hrec, hsign⟩ := signTx_eip155 hinv hc tx k
    refine ⟨_, hsign, ?_⟩
    have hbn : b.toNat ≤ 1 := by rcases hb with rfl | rfl <;> decide
    -- protected, for this chain, and 2 * chainId + 8 less is 27 + recovery id
    have hprot := isProtectedV_of_lt (show 28 < b.toNat + 35 + 2 * chainId by omega)
    have hV : ((b.toNat + 35 + 2 * chainId : Nat) : Int) - 2 * chainId - 8 = (b.toNat + 27 : Nat) := by
      push_cast
      ring
    rw [sender_fresh, Signer.sender, if_neg (by simp [hprot]), if_neg (by simp [deriveChainId_eip155 chainId hbn]), hV,
      hash_withSignature]
    exact recoverPlain_eq cr hval hrec hpub
  | homestead =>
    obtain ⟨r, s, b, hval, -, hrec, hsign⟩ := signTx_unprotected hinv (.inr (.inl rfl)) tx k
    refine ⟨_, hsign, ?_⟩
    rw [sender_fresh, Signer.sender, homesteadSender, hash_withSignature]
    exact recoverPlain_eq cr hval hrec hpub
  | frontier =>
    obtain ⟨r, s, b, hval, -, hrec, hsign⟩ := signTx_unprotected hinv (.inr (.inr rfl)) tx k
    refine ⟨_, hsign, ?_⟩
    rw [sender_fresh, Signer.sender, hash_withSignature]
    exact recoverPlain_eq cr (validateSignatureValues_frontier hval) hrec hpub

/-- A transaction signed for a chain is rejected by the EIP-155 signer of every other chain. -/
theorem sender_signTx_of_ne {chainId chainId' : Nat} (hc : chainId ≠ 0) (hne : chainId' ≠ chainId)
    {tx tx' : Transaction} {k : Key} (h : signTx cr tx (.eip155 chainId) k = .ok tx') :
    (sender cr (.eip155 chainId') tx').1 = .error .invalidChainId := by
  obtain ⟨r, s, b, -, hb, -, hsign⟩ := signTx_eip155 hinv hc tx k
  rw [hsign] at h
  cases h
  have hbn : b.toNat ≤ 1 := by rcases hb with rfl | rfl <;> decide
  have hprot := isProtectedV_of_lt (show 28 < b.toNat + 35 + 2 * chainId by omega)
  rw [sender_fresh, Signer.sender, if_neg (by simp [hprot]),
    if_pos (by simp only [deriveChainId_eip155 chainId hbn]; exact Ne.symm hne)]

end Inverse

/-- What signing promises, for a secp256k1 `cr`. -/
structure SigningLaws (cr : Crypto Key) : Prop where
  /-- With a chain id, V is protected, gives the chain id back, and 2 * chainId + 8 less is 27 + recovery id. -/
  protected_v : ∀ chainId, chainId ≠ 0 → ∀ sig : List UInt8, sig.length = 65 →
    (sig.getD 64 0 = 0 ∨ sig.getD 64 0 = 1) →
    ∃ r s v, (Signer.eip155 chainId).signatureValues sig = .ok (r, s, v) ∧ isProtectedV v ∧
      deriveChainId v = chainId ∧ (v : Int) - 2 * chainId - 8 = 27 + (sig.getD 64 0).toNat
  /-- Without a chain id, and for Homestead and Frontier, V is 27 + recovery id, which is not protected. -/
  unprotected_v : ∀ signer : Signer, (signer = .eip155 0 ∨ signer = .homestead ∨ signer = .frontier) →
    ∀ sig : List UInt8, sig.length = 65 → (sig.getD 64 0 = 0 ∨ sig.getD 64 0 = 1) →
    ∃ r s, signer.signatureValues sig = .ok (r, s, 27 + (sig.getD 64 0).toNat) ∧
      isProtectedV (27 + (sig.getD 64 0).toNat) = false
  /-- `Sender` of a transaction signed by a key is the key's address. -/
  round_trip : ∀ (tx : Transaction) (signer : Signer) (k : Key), signer ≠ .eip155 0 →
    ∃ tx', signTx cr tx signer k = .ok tx' ∧ (sender cr signer tx').1 = .ok (pubkeyToAddress cr (cr.fromECDSAPub k))
  /-- A transaction signed for one chain is rejected for every other. -/
  other_chain : ∀ chainId chainId' : Nat, chainId ≠ 0 → chainId' ≠ chainId → ∀ (tx tx' : Transaction) (k : Key),
    signTx cr tx (.eip155 chainId) k = .ok tx' → (sender cr (.eip155 chainId') tx').1 = .error .invalidChainId

/-- A scheme with two keys, in which recovery reads the key off the recovery id and the lowest bit of the hash: `Sign`
and `Ecrecover` are inverse, and recovery against another hash can give the other key. -/
def parityCrypto : Crypto Bool where
  keccak256 bs := BitVec.ofNat 256 (beValue bs)
  rlpHash vs := BitVec.ofNat 256 vs.length
  sign h k := .ok (beFixed 32 1 ++ beFixed 32 1 ++ [if h.getLsbD 0 == k then 0 else 1])
  ecrecover h sig := .ok [4, if h.getLsbD 0 ^^ (sig.getD 64 0 == 1) then 1 else 0]
  fromECDSAPub k := [4, if k then 1 else 0]

theorem parityCrypto_inverse : parityCrypto.Inverse where
  sign_ok h k := by
    refine ⟨1, 1, if h.getLsbD 0 == k then 0 else 1, ?_, rfl, ?_⟩
    · split <;> decide
    · -- the recovery id is the hash's bit xor the key, so recovery xors it away
      simp only [parityCrypto]
      generalize h.getLsbD 0 = bit
      cases bit <;> cases k <;> rfl
  pub_head _ := rfl

/-- A transaction with every field zero or empty. -/
def zeroTx : Transaction := ⟨⟨0, 0, 0, none, 0, [], 0, 0, 0⟩, none⟩

end Etherzero.Types
