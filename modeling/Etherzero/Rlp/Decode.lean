import Mathlib
import Etherzero.Lib.BigEndian
import Etherzero.Lib.StateExcept
import Etherzero.Rlp.Types
import Etherzero.Rlp.Stream

/-!
# RLP: the decoders of decode.go

`makeDecoder` picks a decoder by type and tags, as the source does, and `decodeBytes` runs it on a stream over the
input. A decoder writes into a fresh zero value of its type (`DecodeBytes(b, &x)` with `x` declared and not yet
set), so here it returns the value it builds. The slice loops of the source run until the list ends; here they run
on fuel, and `decodeBytes` gives them one more than the length of the input, which each iteration but the last
consumes a byte of.
-/

namespace Etherzero.Rlp



/-- `wrapStreamError`: the stream errors a decoder reports as a `decodeError` of its own. -/
def wrapStreamError : Err → Err
  | .canonInt => .decode "non-canonical integer (leading zero bytes)" []
  | .canonSize => .decode "non-canonical size information" []
  | .expectedList => .decode "expected input list" []
  | .expectedString => .decode "expected input string or byte" []
  | .uintOverflow => .decode "input string too long" []
  | .notAtEOL => .decode "input list has too many elements" []
  | e => e

/-- `addErrorContext`: a `decodeError` records the field or index it passed through. -/
def addErrorContext (ctx : String) : Err → Err
  | .decode msg c => .decode msg (c ++ [ctx])
  | e => e

/-- A stream call whose error the decoder wraps (`return wrapStreamError(err, ...)`). -/
def wrapped {α : Type} (x : StreamM α) : StreamM α := tryCatch x fun e => throw (wrapStreamError e)

/-- `decodeUint`. -/
def decodeUint (k : UintKind) : StreamM Val := do
  let num ← wrapped (Stream.uint k.bits)
  pure (.uint num)

/-- `decodeBool`. -/
def decodeBool : StreamM Val := do
  let b ← wrapped Stream.bool
  pure (.bool b)

/-- `decodeString`. -/
def decodeString : StreamM Val := do
  let b ← wrapped Stream.bytes
  pure (.bytes b)

/-- `decodeBigInt`: the content of an RLP string, read as a big-endian magnitude into a new `*big.Int`. The fork
prints a string with a leading zero byte and accepts it: the `return` of `ErrCanonInt` is commented out. -/
def decodeBigInt : StreamM Val := do
  let b ← wrapped Stream.bytes
  pure (.ptr (some (.bigInt (beValue b))))

/-- `decodeBigIntNoPtr`: `decodeBigInt` on the address of the `big.Int`. -/
def decodeBigIntNoPtr : StreamM Val := do
  let b ← wrapped Stream.bytes
  pure (.bigInt (beValue b))

/-- `decodeByteSlice`. -/
def decodeByteSlice : StreamM Val := do
  let b ← wrapped Stream.bytes
  pure (.bytes b)

/-- `decodeByteArray`: an RLP string of exactly the array's length, or a single byte for `[1]byte`. In the single
byte case the source reads the byte with `s.Uint()` and drops its error: for the byte `0x00` that is `ErrCanonInt`,
returned before the cached kind is rearmed, and the element is then zero. -/
def decodeByteArray (vlen : Nat) : StreamM Val := do
  let (kind, size) ← Stream.Kind
  match kind with
  | .byte =>
    if vlen = 0 then throw (.decode "input string too long" [])
    if vlen > 1 then throw (.decode "input string too short" [])
    let bv ← observing (Stream.uint 64)
    pure (.bytes [UInt8.ofNat ((bv.toOption).getD 0)])
  | .string =>
    if vlen < size then throw (.decode "input string too long" [])
    if vlen > size then throw (.decode "input string too short" [])
    let slice ← Stream.readFull vlen
    if size = 1 && slice.head?.all (· < 128) then throw (wrapStreamError .canonSize)
    pure (.bytes slice)
  | .list => throw (wrapStreamError .expectedString)

/-- `decodeSliceElems`: decode elements until the list ends (`EOL`); an element's error names its index. -/
def decodeSliceElems (elemdec : StreamM Val) : (fuel i : Nat) → StreamM (List Val)
  | 0, _ => throw .outOfFuel
  | fuel + 1, i => do
    match ← observing elemdec with
    | .error .eol => pure []
    | .error err => throw (addErrorContext s!"[{i}]" err)
    | .ok v =>
      let vs ← decodeSliceElems elemdec fuel (i + 1)
      pure (v :: vs)

/-- `decodeListSlice`: a list of elements. -/
def decodeListSlice (elemdec : StreamM Val) (fuel : Nat) : StreamM (List Val) := do
  let size ← wrapped Stream.list
  if size = 0 then
    Stream.listEnd
    pure []
  else
    let vs ← decodeSliceElems elemdec fuel 0
    Stream.listEnd
    pure vs

/-- The element loop of `decodeListArray`: at most `vlen` elements, fewer when the list ends first. -/
def decodeArrayElems (elemdec : StreamM Val) : (vlen i : Nat) → StreamM (List Val)
  | 0, _ => pure []
  | vlen + 1, i => do
    match ← observing elemdec with
    | .error .eol => pure []
    | .error err => throw (addErrorContext s!"[{i}]" err)
    | .ok v =>
      let vs ← decodeArrayElems elemdec vlen (i + 1)
      pure (v :: vs)

/-- `decodeListArray`: a list of exactly the array's length. -/
def decodeListArray (vlen : Nat) (elemdec : StreamM Val) : StreamM Val := do
  let _ ← wrapped Stream.list
  let vs ← decodeArrayElems elemdec vlen 0
  if vs.length < vlen then throw (.decode "input list has too few elements" [])
  wrapped Stream.listEnd
  pure (.list vs)

/-- The decoder of `makePtrDecoder`: the element, in a new pointer. -/
def makePtrDecoder (elemdec : StreamM Val) : StreamM Val := do
  let v ← elemdec
  pure (.ptr (some v))

/-- The decoder of `makeOptionalPtrDecoder` (a field tagged `"nil"`): an empty string or an empty list is a nil
pointer, which the stream passes over; anything else is decoded as by `makePtrDecoder`. -/
def makeOptionalPtrDecoder (elemdec : StreamM Val) : StreamM Val := do
  match ← observing Stream.Kind with
  | .error err =>
    Stream.rearm
    throw err
  | .ok (kind, size) =>
    if size = 0 && kind ≠ .byte then
      Stream.rearm
      pure (.ptr none)
    else
      let v ← elemdec
      pure (.ptr (some v))

/-- `decodeInterface`: a list becomes `[]interface{}` of interfaces decoded the same way, anything else `[]byte`. -/
def decodeInterface : Nat → StreamM Val
  | 0 => throw .outOfFuel
  | fuel + 1 => do
    let (kind, _) ← Stream.Kind
    if kind = .list then
      let vs ← decodeListSlice (decodeInterface fuel) fuel
      pure (.ifaceList vs)
    else
      let b ← Stream.bytes
      pure (.ifaceBytes b)

mutual
/-- `makeDecoder`: the decoder of a type under the tags of the field it sits in, in the order of the source's cases
(`makeListDecoder` picks the byte, array, tail and slice decoders). -/
def makeDecoder (fuel : Nat) : Ty → Tags → StreamM Val
  | .ptr .bigInt, _ => decodeBigInt
  | .bigInt, _ => decodeBigIntNoPtr
  | .uint k, _ => decodeUint k
  | .bool, _ => decodeBool
  | .string, _ => decodeString
  | .bytes, _ => decodeByteSlice
  | .byteArray n, _ => decodeByteArray n
  | .slice e, tags =>
    if tags.tail then .list <$> decodeSliceElems (makeDecoder fuel e {}) fuel 0
    else .list <$> decodeListSlice (makeDecoder fuel e {}) fuel
  | .array n e, _ => decodeListArray n (makeDecoder fuel e {})
  | .struct fs, _ => do
    let _ ← wrapped Stream.list
    let vs ← makeStructDecoder fuel fs
    wrapped Stream.listEnd
    pure (.list vs)
  | .ptr e, tags =>
    if tags.nilOK then makeOptionalPtrDecoder (makeDecoder fuel e {})
    else makePtrDecoder (makeDecoder fuel e {})
  | .iface, _ => decodeInterface fuel

/-- The field loop of `makeStructDecoder`: each field not tagged `"-"` in turn, the others left zero. A list that
ends before the last field is "too few elements". -/
def makeStructDecoder (fuel : Nat) : Fields → StreamM (List Val)
  | .nil => pure []
  | .cons name t tags fs =>
    if tags.ignored then do
      let vs ← makeStructDecoder fuel fs
      pure (t.zero :: vs)
    else do
      match ← observing (makeDecoder fuel t tags) with
      | .error .eol => throw (.decode "too few elements" [])
      | .error err => throw (addErrorContext ("." ++ name) err)
      | .ok v =>
        let vs ← makeStructDecoder fuel fs
        pure (v :: vs)
end

/-- `DecodeBytes`: the type's decoder on a stream limited to the input, which must then be read to its end. -/
def decodeBytes (t : Ty) (b : List UInt8) : Except Err Val :=
  match t.typeError with
  | some msg => .error (.typeInfo msg)
  | none =>
    match exec (makeDecoder (b.length + 1) t {}) (Stream.new b) with
    | (.error e, _) => .error e
    | (.ok v, s) => if s.r.length > 0 then .error .moreThanOneValue else .ok v

end Etherzero.Rlp
