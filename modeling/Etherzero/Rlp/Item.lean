import Mathlib
import Etherzero.Lib.BigEndian
import Etherzero.Rlp.Types

/-!
# RLP items and their canonical encoding

What the codec is for: an RLP item is a byte string or a list of items, and each item has exactly one encoding,
the one of the Yellow Paper (appendix B). A string of one byte below `0x80` is that byte; otherwise a payload of
fewer than 56 bytes is prefixed by one byte, `0x80` (strings) or `0xC0` (lists) plus its length, and a longer one by
`0xB7` or `0xF7` plus the length of its length, then that length in big endian without leading zeros.

The second half of the module says what a Go value is as an item: `Ty.items` is what the writers of encode.go
write, `Ty.decoded` what the decoders give back, and `Ty.decodesBack` the values for which the two meet.
-/

namespace Etherzero.Rlp

/-- An RLP item: a byte string or a list of items. -/
inductive Item where
  | str (bs : List UInt8)
  | list (items : List Item)
  deriving Repr

/-- The length prefix of a payload of `n` bytes, with the tag `short` below 56 bytes and `long` above. -/
def lengthPrefix (short long : UInt8) (n : Nat) : List UInt8 :=
  if n < 56 then [short + UInt8.ofNat n] else (long + UInt8.ofNat (beBytes n).length) :: beBytes n

/-- A string that is its own encoding: one byte below `0x80`. -/
def isSingleByte : List UInt8 → Bool
  | [b] => b < 0x80
  | _ => false

mutual
/-- The canonical encoding of an item. -/
def Item.encode : Item → List UInt8
  | .str bs => if isSingleByte bs then bs else lengthPrefix 0x80 0xB7 bs.length ++ bs
  | .list items => lengthPrefix 0xC0 0xF7 (Item.encodeList items).length ++ Item.encodeList items

/-- The encodings of a list of items, one after the other: the payload of a list. -/
def Item.encodeList : List Item → List UInt8
  | [] => []
  | i :: is => i.encode ++ Item.encodeList is
end

/-- An item whose encoding has an empty payload: `0x80` or `0xC0`. -/
def Item.isEmpty : Item → Bool
  | .str [] => true
  | .list [] => true
  | _ => false

/-- An item that is a list. -/
def Item.isList : Item → Bool
  | .list _ => true
  | .str _ => false

mutual
/-- The item the interface writer writes: a nil interface is the empty list. -/
def Val.ifaceItem : Val → Item
  | .ifaceBytes bs => .str bs
  | .ifaceList vs => .list (Val.ifaceItems vs)
  | _ => .list []

/-- The items of a list of interfaces. -/
def Val.ifaceItems : List Val → List Item
  | [] => []
  | v :: vs => v.ifaceItem :: Val.ifaceItems vs
end

mutual
/-- The value `decodeInterface` gives back for an interface: a nil interface comes back as an empty list. -/
def Val.ifaceDecoded : Val → Val
  | .ifaceBytes bs => .ifaceBytes bs
  | .ifaceList vs => .ifaceList (Val.ifaceDecodedList vs)
  | _ => .ifaceList []

/-- `ifaceDecoded` on every element. -/
def Val.ifaceDecodedList : List Val → List Val
  | [] => []
  | v :: vs => v.ifaceDecoded :: Val.ifaceDecodedList vs
end

mutual
/-- No big integer in the value is negative: the writers refuse those. -/
def Val.nonneg : Val → Bool
  | .bigInt i => decide (0 ≤ i)
  | .list vs => Val.nonnegList vs
  | .ptr (some v) => v.nonneg
  | _ => true

/-- `nonneg` for every element. -/
def Val.nonnegList : List Val → Bool
  | [] => true
  | v :: vs => v.nonneg && Val.nonnegList vs
end

mutual
/-- The items the writer of `t` under `tags` writes for `v` (`makeWriter`): one item, or for a `"tail"` slice the
items of its elements. A value of another shape than its type writes nothing. -/
def Ty.items : Ty → Tags → Val → List Item
  | .iface, _, v => [v.ifaceItem]
  | .ptr .bigInt, _, .ptr none => [.str []]
  | .ptr .bigInt, _, .ptr (some (.bigInt i)) => [.str (beBytes i.toNat)]
  | .bigInt, _, .bigInt i => [.str (beBytes i.toNat)]
  | .uint _, _, .uint n => [.str (beBytes n)]
  | .bool, _, .bool b => [.str (if b then [1] else [])]
  | .string, _, .bytes bs => [.str bs]
  | .bytes, _, .bytes bs => [.str bs]
  | .byteArray _, _, .bytes bs => [.str bs]
  | .slice e, tags, .list vs =>
    if tags.tail then vs.flatMap (e.items {}) else [.list (vs.flatMap (e.items {}))]
  | .array _ e, tags, .list vs =>
    if tags.tail then vs.flatMap (e.items {}) else [.list (vs.flatMap (e.items {}))]
  | .struct fs, _, .list vs => [.list (fs.items vs)]
  | .ptr e, _, .ptr none =>
    match e with
    | .byteArray _ => [.str []]
    | .struct _ | .array .. => [.list []]
    | _ => e.items {} e.zero
  | .ptr e, _, .ptr (some v) => e.items {} v
  | _, _, _ => []

/-- The items of a struct's fields: those not tagged `"-"`, in order. -/
def Fields.items : Fields → List Val → List Item
  | .cons _ t tags fs, v :: vs => (if tags.ignored then [] else t.items tags v) ++ fs.items vs
  | _, _ => []
end

mutual
/-- The value the decoder of `t` under `tags` builds from the items of `v`: a nil pointer comes back pointing to
the zero value, a `"nil"`-tagged pointer to an empty item comes back nil, a field tagged `"-"` comes back zero. -/
def Ty.decoded : Ty → Tags → Val → Val
  | .iface, _, v => v.ifaceDecoded
  | .ptr .bigInt, _, .ptr none => .ptr (some (.bigInt 0))
  | .ptr .bigInt, _, v => v
  | .slice e, _, .list vs => .list (vs.map (e.decoded {}))
  | .array _ e, _, .list vs => .list (vs.map (e.decoded {}))
  | .struct fs, _, .list vs => .list (fs.decoded vs)
  | .ptr e, tags, .ptr none => if tags.nilOK then .ptr none else .ptr (some (e.decoded {} e.zero))
  | .ptr e, tags, .ptr (some v) =>
    if tags.nilOK && (e.items {} v).all Item.isEmpty then .ptr none else .ptr (some (e.decoded {} v))
  | _, _, v => v

/-- `Ty.decoded` field by field; a field tagged `"-"` stays zero. -/
def Fields.decoded : Fields → List Val → List Val
  | .cons _ t tags fs, v :: vs => (if tags.ignored then t.zero else t.decoded tags v) :: fs.decoded vs
  | _, _ => []
end

mutual
/-- The types whose nil pointer (outside a `"nil"`-tagged field) decodes: the empty string or list the pointer
writer puts for it must be a value of the type. That fails for a non-empty byte array, a non-empty array, and a
struct with a field that is neither skipped nor a `"tail"` slice: a `"tail"` byte slice still reads one string. -/
def Ty.nilDecodes : Ty → Bool
  | .byteArray n => n == 0
  | .array n _ => n == 0
  | .struct fs => fs.nilDecodes
  | .ptr e => e.nilDecodes
  | _ => true

/-- Every field of the struct is skipped or a `"tail"` slice of other elements than bytes. -/
def Fields.nilDecodes : Fields → Bool
  | .nil => true
  | .cons _ t tags fs => (tags.ignored || (tags.tail && t matches .slice _)) && fs.nilDecodes
end

mutual
/-- The values whose encoding decodes back: a value of its type whose big integers are not negative, whose nil
pointers outside `"nil"`-tagged fields point to a type that `nilDecodes`, and in which no `[1]byte` holds the byte
`0x00`, whose decoding leaves a stale kind in the stream. -/
def Ty.decodesBack : Ty → Tags → Val → Bool
  | .iface, _, v => v.isIface
  | .ptr .bigInt, _, .ptr none => true
  | .ptr .bigInt, _, .ptr (some (.bigInt i)) => decide (0 ≤ i)
  | .bigInt, _, .bigInt i => decide (0 ≤ i)
  | .uint k, _, .uint n => decide (n < 2 ^ k.bits)
  | .bool, _, .bool _ => true
  | .string, _, .bytes _ => true
  | .bytes, _, .bytes _ => true
  | .byteArray n, _, .bytes bs => bs.length == n && bs != [0]
  | .slice e, _, .list vs => vs.all (e.decodesBack {})
  | .array n e, _, .list vs => vs.length == n && vs.all (e.decodesBack {})
  | .struct fs, _, .list vs => fs.decodesBack vs
  | .ptr e, tags, .ptr none => tags.nilOK || e.nilDecodes
  | .ptr e, _, .ptr (some v) => e.decodesBack {} v
  | _, _, _ => false

/-- Every field value decodes back, the skipped ones aside. -/
def Fields.decodesBack : Fields → List Val → Bool
  | .nil, [] => true
  | .cons _ t tags fs, v :: vs => (tags.ignored || t.decodesBack tags v) && fs.decodesBack vs
  | _, _ => false
end

/-- Whether the writer puts the empty list, rather than the empty string, for a nil pointer to `t`. -/
def Ty.nilIsList : Ty → Bool
  | .slice _ => true
  | .array .. => true
  | .struct _ => true
  | .iface => true
  | .ptr e => e.nilIsList
  | _ => false

mutual
/-- The items that the decoder of `t` reads as the writer writes them again: every string read as a big integer
has no leading zero byte, and an empty value that a `"nil"`-tagged pointer reads as nil is the empty value the
writer puts for a nil pointer of its type. -/
def Ty.readsBack : Ty → Tags → Item → Bool
  | .ptr .bigInt, _, .str bs => bs.head? != some 0
  | .bigInt, _, .str bs => bs.head? != some 0
  | .slice e, _, .list is => is.all (e.readsBack {})
  | .array _ e, _, .list is => is.all (e.readsBack {})
  | .struct fs, _, .list is => fs.readsBack is
  | .ptr e, tags, i => if tags.nilOK && i.isEmpty then i.isList == e.nilIsList else e.readsBack {} i
  | _, _, _ => true

/-- `readsBack` for the fields of a struct: a `"tail"` slice reads all the items left. -/
def Fields.readsBack : Fields → List Item → Bool
  | .nil, _ => true
  | .cons _ t tags fs, is =>
    if tags.ignored then fs.readsBack is
    else match t, tags.tail, is with
      | .slice e, true, is => is.all (e.readsBack {})
      | t, _, i :: is => t.readsBack tags i && fs.readsBack is
      | _, _, [] => true
end

mutual
/-- No `[1]byte` in the value holds the byte zero, which its decoder reads and leaves cached. -/
def Ty.zeroByteFree : Ty → Val → Bool
  | .byteArray _, .bytes bs => bs != [0]
  | .slice e, .list vs => vs.all e.zeroByteFree
  | .array _ e, .list vs => vs.all e.zeroByteFree
  | .struct fs, .list vs => fs.zeroByteFree vs
  | .ptr e, .ptr (some v) => e.zeroByteFree v
  | _, _ => true

/-- `zeroByteFree` for the fields of a struct that are not skipped. -/
def Fields.zeroByteFree : Fields → List Val → Bool
  | .cons _ t tags fs, v :: vs => (tags.ignored || t.zeroByteFree v) && fs.zeroByteFree vs
  | _, _ => true
end

end Etherzero.Rlp
