import Mathlib

/-!
# The three encodings of trie keys (trie/encoding.go)

A KEYBYTES key is the key's bytes. Its HEX form has one byte per nibble, high nibble first, and may end in the
terminator 16, which marks a key whose node holds a value. The COMPACT form, the Yellow Paper's hex-prefix
encoding, packs two nibbles to a byte after a flag byte. The flag's high nibble has bit 0 for an odd number of nibbles
and bit 1 for the terminator. Its low nibble is the first nibble when there is an odd number of them, and zero otherwise.

Byte slices are lists of `UInt8`, with Go's `byte` arithmetic. `decodeNibbles` reads `nibbles[ni+1]` for every even
`ni` below the length, so an odd length would index past the end. That is a panic, `none` here. `hexToKeybytes`
panics on an odd length, and `compactToHex` panics when it reads `base[0]` of an empty slice or slices past the end.
-/

namespace Etherzero.Trie

/-- `hasTerm`: the key ends in the terminator 16. -/
def hasTerm (s : List UInt8) : Bool := s.getLast? == some 16

/-- `decodeNibbles`: the bytes of consecutive pairs of nibbles. -/
def decodeNibbles : List UInt8 → Option (List UInt8)
  | [] => some []
  | [_] => none
  | high :: low :: rest => (decodeNibbles rest).map ((high <<< 4 ||| low) :: ·)

/-- `hexToCompact`. -/
def hexToCompact (hex : List UInt8) : Option (List UInt8) :=
  let terminator : UInt8 := if hasTerm hex then 1 else 0
  let hex := if hasTerm hex then hex.dropLast else hex
  let flag := terminator <<< 5
  if hex.length % 2 = 1 then
    match hex with
    -- the odd flag, and the first nibble in the flag byte
    | first :: rest => (decodeNibbles rest).map ((flag ||| (1 : UInt8) <<< 4 ||| first) :: ·)
    | [] => none
  else (decodeNibbles hex).map (flag :: ·)

/-- `keybytesToHex`: two nibbles a byte, high first, and the terminator. -/
def keybytesToHex (str : List UInt8) : List UInt8 := str.flatMap (fun b => [b / 16, b % 16]) ++ [16]

/-- `compactToHex`. -/
def compactToHex (compact : List UInt8) : Option (List UInt8) := do
  let base := keybytesToHex compact
  let first ← base.head?
  -- delete the terminator unless the flag has it
  let base := if first < 2 then base.dropLast else base
  -- drop the flag nibble, and the padding nibble of an even key
  let first ← base.head?
  let chop := 2 - (first &&& 1).toNat
  if chop ≤ base.length then pure (base.drop chop) else none

/-- `hexToKeybytes`, for keys of an even number of nibbles. -/
def hexToKeybytes (hex : List UInt8) : Option (List UInt8) :=
  let hex := if hasTerm hex then hex.dropLast else hex
  if hex.length % 2 ≠ 0 then none else decodeNibbles hex

end Etherzero.Trie
