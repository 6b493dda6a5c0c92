import Mathlib
import Etherzero.Lib.BigEndian
import Etherzero.Lib.StateExcept
import Etherzero.Rlp.Types

/-!
# RLP: the decoding stream of decode.go

`Stream` reads one RLP value after another from a `bytes.Reader`. `Kind` reads the type information of the next
value and caches it (`kind`, `size`, `byteval`, `kinderr`) until the value is read; `willRead` accounts for every
byte read in the innermost open list (`stack`) and in the input limit (`remaining`). The methods change the stream
also when they fail, so they are computations in `ExceptT Err (StateM Stream)`. Sizes are `uint64` in the source and
`Nat` here: a list position never passes its list's size (`willRead` checks first), so no subtraction wraps.
-/

namespace Etherzero.Rlp

/-- An open list (`listpos`): how much of its payload has been read, and its size. -/
structure Listpos where
  pos : Nat
  size : Nat
  deriving DecidableEq, Repr

/-- The stream (`Stream`). `r` is what the reader has not returned yet; `kind = none` is the source's `kind = -1`
(the type information of the next value is not read); `stack` holds the innermost list first, where the source
appends it last. -/
structure Stream where
  r : List UInt8
  remaining : Nat
  limited : Bool
  kind : Option Kind
  size : Nat
  byteval : UInt8
  kinderr : Option Err
  stack : List Listpos
  deriving DecidableEq, Repr

/-- A computation on the stream. -/
abbrev StreamM := ExceptT Err (StateM Stream)

namespace Stream

/-- `NewStream(bytes.NewReader(b), uint64(len(b)))`, as `DecodeBytes` builds it: limited to the input's length. -/
def new (b : List UInt8) : Stream :=
  { r := b, remaining := b.length, limited := true, kind := none, size := 0, byteval := 0, kinderr := none,
    stack := [] }

/-- `s.kind = -1`: forget the cached type information. -/
def rearm : StreamM Unit := modify fun s => { s with kind := none }

/-- `willRead`: `n` bytes are about to be read; they must fit in the innermost list and in the input limit. -/
def willRead (n : Nat) : StreamM Unit := do
  rearm
  let s ← get
  if let tos :: rest := s.stack then
    if n > tos.size - tos.pos then throw .elemTooLarge
    set { s with stack := { tos with pos := tos.pos + n } :: rest }
  let s ← get
  if s.limited then
    if n > s.remaining then throw .valueTooLarge
    set { s with remaining := s.remaining - n }

/-- `readByte`: one byte of the reader; an exhausted reader is an unexpected end of input. -/
def readByte : StreamM UInt8 := do
  willRead 1
  let s ← get
  match s.r with
  | [] => throw .unexpectedEOF
  | b :: bs =>
    set { s with r := bs }
    pure b

/-- `readFull`: `n` bytes of the reader; a reader with fewer is an unexpected end of input, after it gave what it had. -/
def readFull (n : Nat) : StreamM (List UInt8) := do
  willRead n
  let s ← get
  set { s with r := s.r.drop n }
  if s.r.length < n then throw .unexpectedEOF
  pure (s.r.take n)

/-- `readUint`: a big-endian number of `size` bytes; more than one byte must not start with a zero. -/
def readUint (size : Nat) : StreamM Nat :=
  match size with
  | 0 => do
    rearm
    pure 0
  | 1 => do
    let b ← readByte
    pure b.toNat
  | _ => do
    let buf ← readFull size
    if buf.head? = some 0 then throw .canonSize
    pure (beValue buf)

/-- The error `readKind` reports when its first byte cannot be read: at top level the end of the input is `io.EOF`. -/
def readKindError (toplevel : Bool) (err : Err) : Err :=
  if toplevel && (err == .unexpectedEOF || err == .valueTooLarge) then .eof else err

/-- `readKind`: the type information of the next value, as the triple the source returns. A long size below 56 is
non-canonical. -/
def readKind : StreamM (Kind × Nat × Option Err) := do
  match ← observing readByte with
  | .error err =>
    let s ← get
    pure (.byte, 0, some (readKindError s.stack.isEmpty err))
  | .ok b =>
    modify fun s => { s with byteval := 0 }
    if b < 0x80 then
      modify fun s => { s with byteval := b }
      pure (.byte, 0, none)
    else if b < 0xB8 then
      pure (.string, (b - 0x80).toNat, none)
    else if b < 0xC0 then
      match ← observing (readUint (b - 0xB7).toNat) with
      | .ok size => pure (.string, size, if size < 56 then some .canonSize else none)
      | .error err => pure (.string, 0, some err)
    else if b < 0xF8 then
      pure (.list, (b - 0xC0).toNat, none)
    else
      match ← observing (readUint (b - 0xF7).toNat) with
      | .ok size => pure (.list, size, if size < 56 then some .canonSize else none)
      | .error err => pure (.list, 0, some err)

/-- The check `Kind` makes after a successful `readKind`: the value must fit in the input at top level, and in the
rest of the innermost list otherwise. -/
def sizeError (s : Stream) (size : Nat) : Option Err :=
  match s.stack with
  | [] => if s.limited && size > s.remaining then some .valueTooLarge else none
  | tos :: _ => if size > tos.size - tos.pos then some .elemTooLarge else none

/-- `Kind` (the source's exported name: `kind` is the field it caches). The cached information is returned, its
error included, until the value is read; at the end of the innermost list it is `EOL`. -/
def Kind : StreamM (Rlp.Kind × Nat) := do
  let s ← get
  match s.kind with
  | some k =>
    match s.kinderr with
    | some e => throw e
    | none => pure (k, s.size)
  | none =>
    set { s with kinderr := none }
    if let tos :: _ := s.stack then
      if tos.pos = tos.size then throw .eol
    let (kind, size, kinderr) ← readKind
    let s ← get
    let kinderr := kinderr.orElse fun _ => sizeError s size
    set { s with kind := some kind, size := size, kinderr := kinderr }
    match kinderr with
    | some e => throw e
    | none => pure (kind, size)

/-- `Bytes`: the content of an RLP string; a one-byte string below `0x80` is non-canonical. -/
def bytes : StreamM (List UInt8) := do
  let (kind, size) ← Kind
  match kind with
  | .byte =>
    rearm
    pure [(← get).byteval]
  | .string =>
    let b ← readFull size
    if size = 1 && b.head?.all (· < 128) then throw .canonSize
    pure b
  | .list => throw .expectedString

/-- `uint`: an RLP string of at most `maxbits / 8` bytes as a number, without leading zeros. The zero byte is
non-canonical (zero is the empty string), and it leaves the cached kind in place. -/
def uint (maxbits : Nat) : StreamM Nat := do
  let (kind, size) ← Kind
  match kind with
  | .byte =>
    let s ← get
    if s.byteval = 0 then throw .canonInt
    rearm
    pure s.byteval.toNat
  | .string =>
    if size > maxbits / 8 then throw .uintOverflow
    match ← observing (readUint size) with
    | .error .canonSize => throw .canonInt
    | .error err => throw err
    | .ok v => if size > 0 && v < 128 then throw .canonSize else pure v
  | .list => throw .expectedString

/-- `Bool`: `uint(8)`, which must be 0 or 1. -/
def bool : StreamM Bool := do
  let num ← uint 8
  match num with
  | 0 => pure false
  | 1 => pure true
  | n => throw (.invalidBool n)

/-- `List`: enter a list; its size is the bound of the new innermost list. -/
def list : StreamM Nat := do
  let (kind, size) ← Kind
  if kind ≠ .list then throw .expectedList
  modify fun s => { s with stack := ⟨0, size⟩ :: s.stack, kind := none, size := 0 }
  pure size

/-- `ListEnd`: leave the innermost list, which must be read to its end; its size counts as read in the enclosing one. -/
def listEnd : StreamM Unit := do
  let s ← get
  match s.stack with
  | [] => throw .notInList
  | tos :: rest =>
    if tos.pos ≠ tos.size then throw .notAtEOL
    let rest := match rest with
      | [] => []
      | p :: ps => { p with pos := p.pos + tos.size } :: ps
    set { s with stack := rest, kind := none, size := 0 }

end Stream

end Etherzero.Rlp
