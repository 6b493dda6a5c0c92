import Mathlib

/-!
# RLP: the Go types the codec serializes, and their values

The codec of `rlp/` picks a writer (`makeWriter`) and a decoder (`makeDecoder`) by the reflect kind of a Go type and
the struct tags of the field it sits in. `Ty` is the part of Go's type language those two functions accept: unsigned
integers, booleans, strings, `big.Int` (and `*big.Int`, which is `ptr bigInt`), byte slices and arrays, slices, arrays,
structs, pointers and the empty interface. `Val` is a value of such a type; a struct value lists every field, in
declaration order, the skipped ones included. Types that implement `Encoder` or `Decoder`, `RawValue`, and recursive
named types are outside `Ty`. An unexported field is modeled as a field tagged `"-"`: neither side reads it.
-/

namespace Etherzero.Rlp

/-- The kind of the next value in an RLP stream (`Kind`). -/
inductive Kind where
  | byte
  | string
  | list
  deriving DecidableEq, Repr

/-- The errors of decode.go. A `decodeError` keeps its message and the field path the decoders add to it (`ctx`,
innermost first); the Go type it names is left out. `outOfFuel` is not in the source: the model's loops run on fuel. -/
inductive Err where
  | eol
  | expectedString
  | expectedList
  | canonInt
  | canonSize
  | elemTooLarge
  | valueTooLarge
  | moreThanOneValue
  | notInList
  | notAtEOL
  | uintOverflow
  | unexpectedEOF
  | eof
  | invalidBool (n : Nat)
  | typeInfo (msg : String)
  | decode (msg : String) (ctx : List String)
  | outOfFuel
  deriving DecidableEq, Repr

/-- The struct tags of typecache.go: `rlp:"nil"`, `rlp:"tail"` and `rlp:"-"`. -/
structure Tags where
  nilOK : Bool := false
  tail : Bool := false
  ignored : Bool := false
  deriving DecidableEq, Repr

/-- The unsigned integer kinds of `isUint`, with their sizes on a 64-bit platform. -/
inductive UintKind where
  | uint
  | uint8
  | uint16
  | uint32
  | uint64
  | uintptr
  deriving DecidableEq, Repr

/-- `typ.Bits()` for an unsigned integer kind. -/
def UintKind.bits : UintKind → Nat
  | .uint => 64
  | .uint8 => 8
  | .uint16 => 16
  | .uint32 => 32
  | .uint64 => 64
  | .uintptr => 64

mutual
/-- A Go type the codec accepts. `bytes` and `byteArray` are `[]byte` and `[n]byte`; `slice` and `array` have an
element type other than a byte. -/
inductive Ty where
  | uint (k : UintKind)
  | bool
  | string
  | bigInt
  | bytes
  | byteArray (n : Nat)
  | slice (elem : Ty)
  | array (n : Nat) (elem : Ty)
  | struct (fields : Fields)
  | ptr (elem : Ty)
  | iface
  deriving DecidableEq, Repr

/-- The fields of a struct type, in declaration order, each with its name and tags. -/
inductive Fields where
  | nil
  | cons (name : String) (ty : Ty) (tags : Tags) (rest : Fields)
  deriving DecidableEq, Repr
end

/-- A value of a `Ty`. Strings, byte slices and byte arrays hold `bytes`; slices, arrays and structs hold `list`; a
pointer is nil (`ptr none`) or points to a value. An `interface{}` is nil or holds one of the two dynamic types
`decodeInterface` produces: `[]byte`, or `[]interface{}` whose elements are again such interfaces. -/
inductive Val where
  | uint (n : Nat)
  | bool (b : Bool)
  | bytes (bs : List UInt8)
  | bigInt (i : Int)
  | list (vs : List Val)
  | ptr (v : Option Val)
  | ifaceNil
  | ifaceBytes (bs : List UInt8)
  | ifaceList (vs : List Val)
  deriving Repr

mutual
/-- Structural equality of values. -/
def Val.beq : Val → Val → Bool
  | .uint n, .uint m => n == m
  | .bool x, .bool y => x == y
  | .bytes x, .bytes y => x == y
  | .bigInt x, .bigInt y => x == y
  | .list xs, .list ys => Val.beqList xs ys
  | .ptr none, .ptr none => true
  | .ptr (some x), .ptr (some y) => x.beq y
  | .ifaceNil, .ifaceNil => true
  | .ifaceBytes x, .ifaceBytes y => x == y
  | .ifaceList xs, .ifaceList ys => Val.beqList xs ys
  | _, _ => false

/-- Structural equality of value lists. -/
def Val.beqList : List Val → List Val → Bool
  | [], [] => true
  | x :: xs, y :: ys => x.beq y && Val.beqList xs ys
  | _, _ => false
end

mutual
theorem Val.eq_of_beq : ∀ a b : Val, a.beq b = true → a = b
  | .uint _, .uint _, h | .bool _, .bool _, h | .bytes _, .bytes _, h | .bigInt _, .bigInt _, h
  | .ifaceBytes _, .ifaceBytes _, h => by simpa [Val.beq] using h
  | .list xs, .list ys, h | .ifaceList xs, .ifaceList ys, h => by
    rw [Val.eq_of_beqList xs ys (by simpa [Val.beq] using h)]
  | .ptr (some x), .ptr (some y), h => by rw [Val.eq_of_beq x y (by simpa [Val.beq] using h)]
  | .ptr none, .ptr none, _ | .ifaceNil, .ifaceNil, _ => rfl
  | .uint _, .bool _, h | .uint _, .bytes _, h | .uint _, .bigInt _, h | .uint _, .list _, h | .uint _, .ptr _, h
  | .uint _, .ifaceNil, h | .uint _, .ifaceBytes _, h | .uint _, .ifaceList _, h
  | .bool _, .uint _, h | .bool _, .bytes _, h | .bool _, .bigInt _, h | .bool _, .list _, h | .bool _, .ptr _, h
  | .bool _, .ifaceNil, h | .bool _, .ifaceBytes _, h | .bool _, .ifaceList _, h
  | .bytes _, .uint _, h | .bytes _, .bool _, h | .bytes _, .bigInt _, h | .bytes _, .list _, h
  | .bytes _, .ptr _, h | .bytes _, .ifaceNil, h | .bytes _, .ifaceBytes _, h | .bytes _, .ifaceList _, h
  | .bigInt _, .uint _, h | .bigInt _, .bool _, h | .bigInt _, .bytes _, h | .bigInt _, .list _, h
  | .bigInt _, .ptr _, h | .bigInt _, .ifaceNil, h | .bigInt _, .ifaceBytes _, h | .bigInt _, .ifaceList _, h
  | .list _, .uint _, h | .list _, .bool _, h | .list _, .bytes _, h | .list _, .bigInt _, h | .list _, .ptr _, h
  | .list _, .ifaceNil, h | .list _, .ifaceBytes _, h | .list _, .ifaceList _, h
  | .ptr _, .uint _, h | .ptr _, .bool _, h | .ptr _, .bytes _, h | .ptr _, .bigInt _, h | .ptr _, .list _, h
  | .ptr _, .ifaceNil, h | .ptr _, .ifaceBytes _, h | .ptr _, .ifaceList _, h
  | .ptr none, .ptr (some _), h | .ptr (some _), .ptr none, h
  | .ifaceNil, .uint _, h | .ifaceNil, .bool _, h | .ifaceNil, .bytes _, h | .ifaceNil, .bigInt _, h
  | .ifaceNil, .list _, h | .ifaceNil, .ptr _, h | .ifaceNil, .ifaceBytes _, h | .ifaceNil, .ifaceList _, h
  | .ifaceBytes _, .uint _, h | .ifaceBytes _, .bool _, h | .ifaceBytes _, .bytes _, h
  | .ifaceBytes _, .bigInt _, h | .ifaceBytes _, .list _, h | .ifaceBytes _, .ptr _, h
  | .ifaceBytes _, .ifaceNil, h | .ifaceBytes _, .ifaceList _, h
  | .ifaceList _, .uint _, h | .ifaceList _, .bool _, h | .ifaceList _, .bytes _, h | .ifaceList _, .bigInt _, h
  | .ifaceList _, .list _, h | .ifaceList _, .ptr _, h | .ifaceList _, .ifaceNil, h
  | .ifaceList _, .ifaceBytes _, h => by simp [Val.beq] at h

theorem Val.eq_of_beqList : ∀ xs ys : List Val, Val.beqList xs ys = true → xs = ys
  | [], [], _ => rfl
  | x :: xs, y :: ys, h => by
    simp only [Val.beqList, Bool.and_eq_true] at h
    rw [Val.eq_of_beq x y h.1, Val.eq_of_beqList xs ys h.2]
  | [], _ :: _, h | _ :: _, [], h => by simp [Val.beqList] at h
end

mutual
theorem Val.beq_self : ∀ a : Val, a.beq a = true
  | .uint _ | .bool _ | .bytes _ | .bigInt _ | .ifaceBytes _ | .ptr none | .ifaceNil => by simp [Val.beq]
  | .list xs | .ifaceList xs => by simpa [Val.beq] using Val.beqList_self xs
  | .ptr (some x) => by simpa [Val.beq] using Val.beq_self x

theorem Val.beqList_self : ∀ xs : List Val, Val.beqList xs xs = true
  | [] => rfl
  | x :: xs => by simp [Val.beqList, Val.beq_self x, Val.beqList_self xs]
end

instance : DecidableEq Val := fun a b =>
  decidable_of_iff (a.beq b = true) ⟨Val.eq_of_beq a b, fun h => h ▸ Val.beq_self a⟩

mutual
/-- An interface value of the shape `decodeInterface` produces. -/
def Val.isIface : Val → Bool
  | .ifaceNil => true
  | .ifaceBytes _ => true
  | .ifaceList vs => Val.isIfaceList vs
  | _ => false

/-- Every element is an interface value. -/
def Val.isIfaceList : List Val → Bool
  | [] => true
  | v :: vs => v.isIface && Val.isIfaceList vs
end

mutual
/-- `v` is a value of type `t`: an integer fits its bits, a byte array and an array have their length, and every
component has its own type. -/
def Ty.check : Ty → Val → Bool
  | .uint k, .uint n => decide (n < 2 ^ k.bits)
  | .bool, .bool _ => true
  | .string, .bytes _ => true
  | .bigInt, .bigInt _ => true
  | .bytes, .bytes _ => true
  | .byteArray n, .bytes bs => bs.length == n
  | .slice e, .list vs => vs.all e.check
  | .array n e, .list vs => vs.length == n && vs.all e.check
  | .struct fs, .list vs => fs.check vs
  | .ptr _, .ptr none => true
  | .ptr e, .ptr (some v) => e.check v
  | .iface, v => v.isIface
  | _, _ => false

/-- The field values of a struct, one per field, each of its field's type. -/
def Fields.check : Fields → List Val → Bool
  | .nil, [] => true
  | .cons _ t _ fs, v :: vs => t.check v && fs.check vs
  | _, _ => false
end

mutual
/-- The zero value of a type (`reflect.Zero`). -/
def Ty.zero : Ty → Val
  | .uint _ => .uint 0
  | .bool => .bool false
  | .string => .bytes []
  | .bigInt => .bigInt 0
  | .bytes => .bytes []
  | .byteArray n => .bytes (List.replicate n 0)
  | .slice _ => .list []
  | .array n e => .list (List.replicate n e.zero)
  | .struct fs => .list fs.zero
  | .ptr _ => .ptr none
  | .iface => .ifaceNil

/-- The zero value of every field. -/
def Fields.zero : Fields → List Val
  | .nil => []
  | .cons _ t _ fs => t.zero :: fs.zero
end

/-- The fields `structFields` keeps: those not tagged `"-"`. -/
def Fields.structFields : Fields → List (String × Ty × Tags)
  | .nil => []
  | .cons name t tags fs => if tags.ignored then fs.structFields else (name, t, tags) :: fs.structFields

/-- Whether a field list is empty (`fi == typ.NumField()-1` holds for the field before it). -/
def Fields.isNil : Fields → Bool
  | .nil => true
  | .cons .. => false

/-- The kind test of `parseStructTag` for `"tail"`: a byte slice or another slice. -/
def Ty.isSlice : Ty → Bool
  | .bytes => true
  | .slice _ => true
  | _ => false

mutual
/-- The first error that building the type's writer and decoder reports (`cachedTypeInfo`): a `"tail"` tag that is
not on the last field, or not on a slice (`parseStructTag`), anywhere in the type. -/
def Ty.typeError : Ty → Option String
  | .slice e => e.typeError
  | .array _ e => e.typeError
  | .struct fs => fs.typeError
  | .ptr e => e.typeError
  | _ => none

/-- The first tag error of a field list, field by field: the field's tags, then its type. -/
def Fields.typeError : Fields → Option String
  | .nil => none
  | .cons name t tags fs =>
    if tags.tail && !fs.isNil then
      some s!"rlp: invalid struct tag \"tail\" for {name} (must be on last field)"
    else if tags.tail && !t.isSlice then
      some s!"rlp: invalid struct tag \"tail\" for {name} (field type is not slice)"
    else if tags.ignored then fs.typeError
    else (t.typeError).orElse fun _ => fs.typeError
end

end Etherzero.Rlp
