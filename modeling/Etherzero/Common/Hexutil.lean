import Mathlib

/-!
# Hex quantities (common/hexutil/hexutil.go)

A quantity is written `0x` (or `0X`) and hex digits without a leading zero, `0x0` for zero. `DecodeBig` checks the
prefix and the leading zero (`checkNumber`), refuses more than 64 digits, and gathers the digits into `big.Word`s from
the end of the string, `bigWordNibbles` digits a word (16 on a 64-bit platform, 8 on a 32-bit one). `DecodeUint64`
leaves the digits to `strconv.ParseUint` in base 16, whose loop (from Go's standard library) is modeled here too.
`EncodeBig` and `EncodeUint64` write the digits in lower case, as `fmt`'s `%#x` and `strconv.AppendUint` do
(`Nat.toDigits 16`). A Go string is its bytes.
-/

namespace Etherzero.Hexutil

/-- The byte of an ASCII character. -/
def ascii (c : Char) : UInt8 := c.toNat.toUInt8

/-- The errors of hexutil.go, each with its message (`decError`). -/
inductive DecError where
  | emptyString
  | invalidSyntax
  | missingPrefix
  | oddLength
  | emptyNumber
  | leadingZero
  | uint64Range
  | uintRange
  | big256Range
  deriving DecidableEq, Repr

/-- `decError.Error` on a 64-bit platform. -/
def DecError.msg : DecError → String
  | .emptyString => "empty hex string"
  | .invalidSyntax => "invalid hex string"
  | .missingPrefix => "hex string without 0x prefix"
  | .oddLength => "hex string of odd length"
  | .emptyNumber => "hex string \"0x\""
  | .leadingZero => "hex number with leading zero digits"
  | .uint64Range => "hex number > 64 bits"
  | .uintRange => "hex number > 64 bits"
  | .big256Range => "hex number > 256 bits"

/-- `has0xPrefix`. -/
def has0xPrefix : List UInt8 → Bool
  | c₀ :: c₁ :: _ => c₀ = ascii '0' ∧ (c₁ = ascii 'x' ∨ c₁ = ascii 'X')
  | _ => false

/-- `checkNumber`: the digits after the prefix, at least one, and no leading zero unless alone. -/
def checkNumber (input : List UInt8) : Except DecError (List UInt8) :=
  if input.length = 0 then .error .emptyString
  else if !has0xPrefix input then .error .missingPrefix
  else
    let input := input.drop 2
    if input.length = 0 then .error .emptyNumber
    else if input.length > 1 ∧ input.head? = some (ascii '0') then .error .leadingZero
    else .ok input

/-- `decodeNibble`; `none` is `badNibble`. -/
def decodeNibble (c : UInt8) : Option Nat :=
  if ascii '0' ≤ c ∧ c ≤ ascii '9' then some (c - ascii '0').toNat
  else if ascii 'A' ≤ c ∧ c ≤ ascii 'F' then some (c - ascii 'A' + 10).toNat
  else if ascii 'a' ≤ c ∧ c ≤ ascii 'f' then some (c - ascii 'a' + 10).toNat
  else none

/-- The inner loop of `DecodeBig`: the nibbles of one chunk into a `big.Word` of `4 * bigWordNibbles` bits. -/
def decodeWord (bigWordNibbles : Nat) : List UInt8 → Nat → Except DecError Nat
  | [], word => .ok word
  | c :: cs, word =>
    match decodeNibble c with
    | none => .error .invalidSyntax
    | some nib => decodeWord bigWordNibbles cs ((word * 16 + nib) % 2 ^ (4 * bigWordNibbles))

/-- The outer loop of `DecodeBig`: `count` words, the least significant first, each from the `bigWordNibbles` digits
before `end_` (or fewer, at the start of the string). -/
def decodeWords (bigWordNibbles : Nat) (raw : List UInt8) : (count end_ : Nat) → Except DecError (List Nat)
  | 0, _ => .ok []
  | count + 1, end_ =>
    let start := end_ - bigWordNibbles
    match decodeWord bigWordNibbles ((raw.drop start).take (end_ - start)) 0 with
    | .error e => .error e
    | .ok word => (decodeWords bigWordNibbles raw count start).map (word :: ·)

/-- `big.Int.SetBits`: the words, least significant first. -/
def setBits (bigWordNibbles : Nat) (words : List Nat) : Nat :=
  words.foldr (fun word rest => word + 2 ^ (4 * bigWordNibbles) * rest) 0

/-- `DecodeBig`. -/
def decodeBig (bigWordNibbles : Nat) (input : List UInt8) : Except DecError Nat := do
  let raw ← checkNumber input
  if raw.length > 64 then throw .big256Range
  let words ← decodeWords bigWordNibbles raw (raw.length / bigWordNibbles + 1) raw.length
  pure (setBits bigWordNibbles words)

/-- The digits of `n` in lower-case hex, most significant first. -/
def hexDigits (n : Nat) : List UInt8 := (Nat.toDigits 16 n).map ascii

/-- `EncodeBig` of a non-negative integer: `0x0`, or `%#x`. -/
def encodeBig (x : Nat) : List UInt8 :=
  if x = 0 then [ascii '0', ascii 'x', ascii '0'] else ascii '0' :: ascii 'x' :: hexDigits x

/-! ## `DecodeUint64` and `EncodeUint64` -/

/-- The errors of `strconv.ParseUint`. -/
inductive NumError where
  | invalidSyntax
  | range
  deriving DecidableEq, Repr

/-- The value of a digit in `strconv.ParseUint`, any letter counting from 10. -/
def parseDigit (c : UInt8) : Option Nat :=
  if ascii '0' ≤ c ∧ c ≤ ascii '9' then some (c - ascii '0').toNat
  else if ascii 'a' ≤ c ∧ c ≤ ascii 'z' then some (c - ascii 'a' + 10).toNat
  else if ascii 'A' ≤ c ∧ c ≤ ascii 'Z' then some (c - ascii 'A' + 10).toNat
  else none

/-- The loop of `strconv.ParseUint(s, 16, 64)`, with its cutoff of `maxUint64 / 16 + 1`. -/
def parseUintLoop : List UInt8 → Nat → Except NumError Nat
  | [], n => .ok n
  | c :: cs, n =>
    match parseDigit c with
    | none => .error .invalidSyntax
    | some d =>
      if d ≥ 16 then .error .invalidSyntax
      else if n ≥ (2 ^ 64 - 1) / 16 + 1 then .error .range
      else
        let n := n * 16 % 2 ^ 64
        let n1 := (n + d) % 2 ^ 64
        if n1 < n ∨ n1 > 2 ^ 64 - 1 then .error .range else parseUintLoop cs n1

/-- `strconv.ParseUint(s, 16, 64)`. -/
def parseUint (s : List UInt8) : Except NumError Nat :=
  if s.length = 0 then .error .invalidSyntax else parseUintLoop s 0

/-- `mapError`. -/
def mapError : NumError → DecError
  | .range => .uint64Range
  | .invalidSyntax => .invalidSyntax

/-- `DecodeUint64`. -/
def decodeUint64 (input : List UInt8) : Except DecError Nat := do
  let raw ← checkNumber input
  match parseUint raw with
  | .error e => throw (mapError e)
  | .ok dec => pure dec

/-- `EncodeUint64`. -/
def encodeUint64 (i : UInt64) : List UInt8 := ascii '0' :: ascii 'x' :: hexDigits i.toNat

end Etherzero.Hexutil
