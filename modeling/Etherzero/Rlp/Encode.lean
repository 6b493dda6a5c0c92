import Mathlib
import Etherzero.Lib.BigEndian
import Etherzero.Lib.StateExcept
import Etherzero.Rlp.Types

/-!
# RLP: the encoder of encode.go

The writers append string data to an `encbuf` and open and close list headers in it; only `toBytes` places the
headers, once their sizes are known, between the string data. A writer returns an error only for a negative
`big.Int`. Sizes are `int`/`uint64` in the source and `Nat` here: an encoding never comes near `2 ^ 63` bytes.
-/

namespace Etherzero.Rlp

/-- `putint`: `i` in big endian with the least number of bytes, at least one. The source spells out the cases
`i < 2^8, ..., i < 2^56` and the rest; the first writes the byte of `i`, each other one the bytes of `i` without a
leading zero. -/
def putint (i : Nat) : List UInt8 := if i < 256 then [UInt8.ofNat i] else beBytes i

/-- `intsize`: the least number of bytes, at least one, that store `i`. -/
def intsize (i : Nat) : Nat := max 1 (beBytes i).length

/-- `headsize`: the size of a list or string header for a payload of `size` bytes. -/
def headsize (size : Nat) : Nat := if size < 56 then 1 else 1 + intsize size

/-- `puthead`: a string header (tags `0x80`, `0xB7`) or a list header (`0xC0`, `0xF7`) for `size` bytes. -/
def puthead (smalltag largetag : UInt8) (size : Nat) : List UInt8 :=
  if size < 56 then [smalltag + UInt8.ofNat size]
  else (largetag + UInt8.ofNat (putint size).length) :: putint size

/-- A list header of the buffer (`listhead`): where it goes in the string data, and the size of the list's payload,
list headers included. Until `listEnd`, `size` holds the buffer's `lhsize` at the time the list was opened. -/
structure Listhead where
  offset : Nat
  size : Nat
  deriving DecidableEq, Repr

/-- `listhead.encode`. -/
def Listhead.encode (head : Listhead) : List UInt8 := puthead 0xC0 0xF7 head.size

/-- The encoder's buffer (`encbuf`): the string data, the list headers in the order they were opened, and the total
size of the headers closed so far. -/
structure Encbuf where
  str : List UInt8
  lheads : List Listhead
  lhsize : Nat
  deriving DecidableEq, Repr

/-- The buffer after `reset`. -/
def Encbuf.empty : Encbuf := ⟨[], [], 0⟩

/-- `encbuf.size`: the size of the encoding, headers included. -/
def Encbuf.size (w : Encbuf) : Nat := w.str.length + w.lhsize

/-- `toBytes`, from the string position `strpos` on: the string data up to each header, then the header. -/
def Encbuf.toBytesFrom (str : List UInt8) : List Listhead → Nat → List UInt8
  | [], strpos => str.drop strpos
  | head :: heads, strpos =>
    (str.drop strpos).take (head.offset - strpos) ++ head.encode ++ Encbuf.toBytesFrom str heads head.offset

/-- `toBytes`: the string data with every list header placed at its offset. -/
def Encbuf.toBytes (w : Encbuf) : List UInt8 := Encbuf.toBytesFrom w.str w.lheads 0

/-- A writer: it changes the buffer and may return an error text. -/
abbrev EncM := ExceptT String (StateM Encbuf)

/-- Append string data (`w.str = append(w.str, ...)`). -/
def appendStr (bs : List UInt8) : EncM Unit := modify fun w => { w with str := w.str ++ bs }

/-- `encbuf.list`: open a list header; its index in `lheads` is what `listEnd` gets back. -/
def Encbuf.list : EncM Nat := modifyGet fun w =>
  (w.lheads.length, { w with lheads := w.lheads ++ [⟨w.str.length, w.lhsize⟩] })

/-- `encbuf.listEnd`: the list's size is what was written since it was opened, headers included. -/
def Encbuf.listEnd (idx : Nat) : EncM Unit := modify fun w =>
  match w.lheads[idx]? with
  | none => w
  | some lh =>
    let size := w.size - lh.offset - lh.size
    { w with lheads := w.lheads.set idx { lh with size := size }, lhsize := w.lhsize + headsize size }

/-- `encodeStringHeader`. -/
def encodeStringHeader (size : Nat) : EncM Unit :=
  if size < 56 then appendStr [0x80 + UInt8.ofNat size]
  else appendStr ((0xB7 + UInt8.ofNat (putint size).length) :: putint size)

/-- `encodeString`: a single byte below `0x80` is its own encoding; other strings get a header. -/
def encodeString (b : List UInt8) : EncM Unit :=
  match b with
  | [b0] => if b0 ≤ 0x7F then appendStr [b0] else do encodeStringHeader 1; appendStr [b0]
  | _ => do encodeStringHeader b.length; appendStr b

/-- `writeUint`: zero is the empty string, a number below 128 its own byte. -/
def writeUint : Val → EncM Unit
  | .uint i =>
    if i = 0 then appendStr [0x80]
    else if i < 128 then appendStr [UInt8.ofNat i]
    else appendStr ((0x80 + UInt8.ofNat (putint i).length) :: putint i)
  | _ => pure ()

/-- `writeBool`. -/
def writeBool : Val → EncM Unit
  | .bool true => appendStr [0x01]
  | .bool false => appendStr [0x80]
  | _ => pure ()

/-- `writeBigInt`: the magnitude in big endian; negative numbers are refused. -/
def writeBigInt (i : Int) : EncM Unit :=
  if i < 0 then throw "rlp: cannot encode negative *big.Int"
  else if i = 0 then appendStr [0x80]
  else encodeString (beBytes i.toNat)

/-- `writeBigIntPtr`: a nil `*big.Int` is the empty string. -/
def writeBigIntPtr : Val → EncM Unit
  | .ptr none => appendStr [0x80]
  | .ptr (some (.bigInt i)) => writeBigInt i
  | _ => pure ()

/-- `writeBigIntNoPtr`. -/
def writeBigIntNoPtr : Val → EncM Unit
  | .bigInt i => writeBigInt i
  | _ => pure ()

/-- `writeBytes`. -/
def writeBytes : Val → EncM Unit
  | .bytes bs => encodeString bs
  | _ => pure ()

/-- `writeByteArray`. -/
def writeByteArray : Val → EncM Unit
  | .bytes bs => encodeString bs
  | _ => pure ()

/-- `writeString`. -/
def writeString : Val → EncM Unit
  | .bytes s =>
    match s with
    | [s0] => if s0 ≤ 0x7F then appendStr [s0] else do encodeStringHeader 1; appendStr s
    | _ => do encodeStringHeader s.length; appendStr s
  | _ => pure ()

mutual
/-- `writeInterface`: a nil interface is the empty list; otherwise the writer of the dynamic type, `[]byte` or
`[]interface{}`. -/
def writeInterface : Val → EncM Unit
  | .ifaceNil => appendStr [0xC0]
  | .ifaceBytes bs => encodeString bs
  | .ifaceList vs => do
    let lh ← Encbuf.list
    writeInterfaces vs
    Encbuf.listEnd lh
  | _ => pure ()

/-- The element loop of the slice writer for `[]interface{}`. -/
def writeInterfaces : List Val → EncM Unit
  | [] => pure ()
  | v :: vs => do
    writeInterface v
    writeInterfaces vs
end

/-- The writer `makeSliceWriter` builds from the element writer: a list of the elements, or, for a `"tail"` field, the
elements alone, which then sit in the enclosing struct's list. (The deferred `listEnd` of the source also runs after
an element fails; the buffer is then thrown away.) -/
def makeSliceWriter (elemWriter : Val → EncM Unit) (ts : Tags) : Val → EncM Unit
  | .list vs =>
    if ts.tail then vs.forM elemWriter
    else do
      let lh ← Encbuf.list
      vs.forM elemWriter
      Encbuf.listEnd lh
  | _ => pure ()

/-- `makePtrWriter`: a nil pointer to a byte array is the empty string, to a struct or another array the empty
list, and to anything else the element writer applied to the element type's zero value. -/
def makePtrWriter (e : Ty) (elemWriter : Val → EncM Unit) : Val → EncM Unit
  | .ptr none =>
    match e with
    | .byteArray _ => appendStr [0x80]
    | .struct _ | .array .. => do
      let lh ← Encbuf.list
      Encbuf.listEnd lh
    | _ => elemWriter e.zero
  | .ptr (some v) => elemWriter v
  | _ => pure ()

mutual
/-- `makeWriter`: the writer of a type, in the order of the source's cases. -/
def makeWriter : Ty → Tags → Val → EncM Unit
  | .iface, _ => writeInterface
  | .ptr .bigInt, _ => writeBigIntPtr
  | .bigInt, _ => writeBigIntNoPtr
  | .uint _, _ => writeUint
  | .bool, _ => writeBool
  | .string, _ => writeString
  | .bytes, _ => writeBytes
  | .byteArray _, _ => writeByteArray
  | .slice e, ts => makeSliceWriter (makeWriter e {}) ts
  | .array _ e, ts => makeSliceWriter (makeWriter e {}) ts
  | .struct fs, _ => fun v => do
    let lh ← Encbuf.list
    makeStructWriter fs v
    Encbuf.listEnd lh
  | .ptr e, _ => makePtrWriter e (makeWriter e {})

/-- The field loop of `makeStructWriter`: each field that is not tagged `"-"`, with its own tags. -/
def makeStructWriter : Fields → Val → EncM Unit
  | .nil, _ => pure ()
  | .cons _ t tags fs, .list (v :: vs) => do
    if !tags.ignored then makeWriter t tags v
    makeStructWriter fs (.list vs)
  | .cons .., _ => pure ()
end

/-- `EncodeToBytes`: the type's writer on an empty buffer, then `toBytes`; a type whose writer cannot be built
returns that error. -/
def encodeToBytes (t : Ty) (v : Val) : Except String (List UInt8) :=
  match t.typeError with
  | some msg => .error msg
  | none =>
    match exec (makeWriter t {} v) Encbuf.empty with
    | (.ok (), w) => .ok w.toBytes
    | (.error e, _) => .error e

end Etherzero.Rlp
