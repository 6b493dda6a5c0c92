import Mathlib
import Etherzero.Lib.BigEndian
import Etherzero.Rlp.Types

/-!
# Transaction signatures (core/types/transaction_signing.go, transaction.go)

A signer hashes the fields of a transaction other than its signature, and turns a 65-byte secp256k1 signature
[R || S || V] into the values V, R and S the transaction stores; `Sender` undoes this. The EIP-155 signer puts its
chain id into the hash and into V (V = 35 + 2 * chainId + recovery id), so that a transaction signed for one chain does
not pass as one for another; the Homestead and Frontier signers store V = 27 + recovery id. Keccak-256, the RLP hash
and secp256k1's `Sign` and `Ecrecover` are taken as given (`Crypto`). Big integers are `Nat`, since the decoder gives no
negative ones, except the V that the EIP-155 signer computes for recovery. Of the caches of a transaction only the
sender's is kept.
-/

namespace Etherzero.Types

open Etherzero.Rlp

/-- `common.Hash`, as the big-endian number of its bytes. -/
abbrev Hash := BitVec 256

/-- `common.Address`, as the big-endian number of its bytes. -/
abbrev Address := BitVec 160

/-- `txdata`: the fields of a transaction, its signature values last. -/
structure TxData where
  accountNonce : Nat
  price : Nat
  gasLimit : Nat
  recipient : Option Address
  amount : Nat
  payload : List UInt8
  v : Nat
  r : Nat
  s : Nat
  deriving DecidableEq, Repr

/-- The three signers; `eip155 chainId` is `NewEIP155Signer(chainId)`, whose `chainIdMul` is `2 * chainId`. -/
inductive Signer where
  | eip155 (chainId : Nat)
  | homestead
  | frontier
  deriving DecidableEq, Repr

/-- The primitives signing calls, taken as given: Keccak-256, `rlpHash` of a list of values, and secp256k1's `Sign`,
`Ecrecover` and the uncompressed public key of a private key (`FromECDSAPub`). -/
structure Crypto (Key : Type) where
  keccak256 : List UInt8 → Hash
  rlpHash : List Val → Hash
  sign : Hash → Key → Except String (List UInt8)
  ecrecover : Hash → List UInt8 → Except String (List UInt8)
  fromECDSAPub : Key → List UInt8

/-- The errors of signing and recovery. -/
inductive SigErr where
  | invalidChainId
  | invalidSig
  | invalidPublicKey
  /-- The panic of `SignatureValues` on a signature that is not 65 bytes. -/
  | wrongSize (n : Nat)
  /-- An error of `Sign` or `Ecrecover`. -/
  | crypto (msg : String)
  deriving DecidableEq, Repr

/-! ## The values of a signature -/

/-- `secp256k1N`, the order of the curve. -/
def secp256k1N : Nat := 0xfffffffffffffffffffffffffffffffebaaedce6af48a03bbfd25e8cd0364141

/-- `secp256k1halfN`. -/
def secp256k1halfN : Nat := secp256k1N / 2

/-- `crypto.ValidateSignatureValues`: R and S below the order and not zero, S in the lower half after Homestead, and a
recovery id of 0 or 1. -/
def validateSignatureValues (v : UInt8) (r s : Nat) (homestead : Bool) : Bool :=
  if r < 1 ∨ s < 1 then false
  else if homestead ∧ s > secp256k1halfN then false
  else r < secp256k1N ∧ s < secp256k1N ∧ (v = 0 ∨ v = 1)

/-- `isProtectedV`: a V of at most 8 bits is protected unless it is 27 or 28; a longer one always is. -/
def isProtectedV (v : Nat) : Bool :=
  if v < 2 ^ 8 then v ≠ 27 ∧ v ≠ 28 else true

/-- `deriveChainId`: in `uint64` arithmetic, which wraps, when V fits in 64 bits; in big integers otherwise. -/
def deriveChainId (v : Nat) : Nat :=
  if v < 2 ^ 64 then
    if v = 27 ∨ v = 28 then 0 else (v + 2 ^ 64 - 35) % 2 ^ 64 / 2
  else (v - 35) / 2

variable {Key : Type}

/-- `crypto.PubkeyToAddress`, and the address `recoverPlain` copies out: the last 20 bytes of the Keccak-256 of the
public key without its first byte. -/
def pubkeyToAddress (cr : Crypto Key) (pub : List UInt8) : Address :=
  (cr.keccak256 pub.tail).setWidth 160

/-- `recoverPlain`: V must fit in a byte, and V - 27 (in `uint64`, then cut to a byte) is the recovery id. The signature
handed to `Ecrecover` has R and S in 32 bytes each; they fit, since the validation bounds them by the curve order. -/
def recoverPlain (cr : Crypto Key) (sighash : Hash) (r s : Nat) (vb : Int) (homestead : Bool) :
    Except SigErr Address :=
  if vb.natAbs ≥ 2 ^ 8 then .error .invalidSig
  else
    let v := (UInt64.ofNat vb.natAbs - 27).toUInt8
    if !validateSignatureValues v r s homestead then .error .invalidSig
    else
      match cr.ecrecover sighash (beFixed 32 r ++ beFixed 32 s ++ [v]) with
      | .error e => .error (.crypto e)
      | .ok pub =>
        if pub.length = 0 ∨ pub.head? ≠ some 4 then .error .invalidPublicKey else .ok (pubkeyToAddress cr pub)

/-! ## Signers -/

/-- The fields every signer hashes, as `rlpHash` gets them: all but the signature values. -/
def TxData.hashFields (tx : TxData) : List Val :=
  [.uint tx.accountNonce, .bigInt tx.price, .uint tx.gasLimit,
    .ptr (tx.recipient.map fun a => .bytes (beFixed 20 a.toNat)), .bigInt tx.amount, .bytes tx.payload]

/-- `Hash` of each signer: the EIP-155 signer adds its chain id and two zeros; Homestead's is Frontier's. -/
def Signer.hash (cr : Crypto Key) : Signer → TxData → Hash
  | .eip155 chainId, tx => cr.rlpHash (tx.hashFields ++ [.bigInt chainId, .uint 0, .uint 0])
  | .homestead, tx | .frontier, tx => cr.rlpHash tx.hashFields

/-- `FrontierSigner.SignatureValues`, which Homestead's is: R, S and V = 27 + recovery id (in byte arithmetic) from
[R || S || V]. -/
def frontierSignatureValues (sig : List UInt8) : Except SigErr (Nat × Nat × Nat) :=
  if sig.length ≠ 65 then .error (.wrongSize sig.length)
  else .ok (beValue (sig.take 32), beValue ((sig.drop 32).take 32), beValue [sig.getD 64 0 + 27])

/-- `SignatureValues`: with a chain id, the EIP-155 signer replaces V by 35 + recovery id (in byte arithmetic, then
widened) plus twice the chain id. -/
def Signer.signatureValues : Signer → List UInt8 → Except SigErr (Nat × Nat × Nat)
  | .eip155 chainId, sig => do
    let (r, s, v) ← frontierSignatureValues sig
    if chainId ≠ 0 then pure (r, s, (sig.getD 64 0 + 35).toNat + 2 * chainId) else pure (r, s, v)
  | .homestead, sig | .frontier, sig => frontierSignatureValues sig

/-- `HomesteadSigner.Sender`. -/
def homesteadSender (cr : Crypto Key) (tx : TxData) : Except SigErr Address :=
  recoverPlain cr (Signer.homestead.hash cr tx) tx.r tx.s tx.v true

/-- `Sender` of each signer. The EIP-155 signer leaves an unprotected transaction to the Homestead signer, rejects one
protected for another chain, and takes 2 * chainId + 8 off V for the rest. -/
def Signer.sender (cr : Crypto Key) : Signer → TxData → Except SigErr Address
  | .eip155 chainId, tx =>
    if !isProtectedV tx.v then homesteadSender cr tx
    else if deriveChainId tx.v ≠ chainId then .error .invalidChainId
    else recoverPlain cr ((Signer.eip155 chainId).hash cr tx) tx.r tx.s ((tx.v : Int) - 2 * chainId - 8) true
  | .homestead, tx => homesteadSender cr tx
  | .frontier, tx => recoverPlain cr (Signer.frontier.hash cr tx) tx.r tx.s tx.v false

/-- `Equal`: the same kind of signer, and for EIP-155 the same chain id. -/
def Signer.equal : Signer → Signer → Bool
  | .eip155 chainId, .eip155 chainId' => chainId == chainId'
  | .homestead, .homestead | .frontier, .frontier => true
  | _, _ => false

/-! ## Transactions -/

/-- A transaction with the cache `Sender` keeps: the signer that derived the sender, and the sender. -/
structure Transaction where
  data : TxData
  sigCache : Option (Signer × Address)

/-- `WithSignature`: a copy with the signature values the signer takes from `sig`, and no caches. -/
def Transaction.withSignature (tx : Transaction) (signer : Signer) (sig : List UInt8) : Except SigErr Transaction := do
  let (r, s, v) ← signer.signatureValues sig
  pure ⟨{ tx.data with r := r, s := s, v := v }, none⟩

/-- `SignTx`: sign the signer's hash of the transaction, and put the signature in. -/
def signTx (cr : Crypto Key) (tx : Transaction) (signer : Signer) (prv : Key) : Except SigErr Transaction :=
  match cr.sign (signer.hash cr tx.data) prv with
  | .error e => .error (.crypto e)
  | .ok sig => tx.withSignature signer sig

/-- `Sender`: the cached sender when the signer that derived it equals this one; otherwise the signer's, which is then
cached. The transaction returned is the one with its cache after the call. -/
def sender (cr : Crypto Key) (signer : Signer) (tx : Transaction) : Except SigErr Address × Transaction :=
  let cached := match tx.sigCache with
    | some (sc, addr) => if sc.equal signer then some addr else none
    | none => none
  match cached with
  | some addr => (.ok addr, tx)
  | none =>
    match signer.sender cr tx.data with
    | .ok addr => (.ok addr, { tx with sigCache := some (signer, addr) })
    | .error e => (.error e, tx)

end Etherzero.Types
