import Mathlib

/-!
# The binary Merkle tree hasher (swarm/bmt/bmt.go, swarm/bmt/bmt_r.go)

A `TreePool` hands out trees of nodes for chunks of `SegmentCount` segments of `SegmentSize` bytes, the size of the
base hash. `Hasher.Write` fills the tree's open section, a double segment. For each section it fills, it starts a
`writeSection` goroutine. `Sum` starts one more for the last section, with its final flag set, and waits for the
root. `RefHasher` hashes the zero-padded data by recursion on halves.

The base hash is any function `H` of the bytes written to it: `doSum(h, b, x, y)` is `b ++ H (x ++ y)`.

This module holds the sequential part: the pool's depth and zero hashes, the shape of `newTree`, `Write` and `Sum`
with the `writeSection` calls they start, and the leaf each call starts from. The goroutines only read the calls'
arguments and the tree's nodes, and `Write` only the tree's cursor, offset and open section, so the calls are
collected in order here and run in `Etherzero.Swarm.BmtTree`. A `TreePool`'s channel of free trees is not
modelled: `reserve` hands out a tree in its reset state.
-/

namespace Etherzero.Bmt

/-- `calculateDepthFor(n)`: one level for each doubling of `c` from 2 while `c < n`, and one more. The loop runs
fewer than `n` times. -/
def calculateDepthFor (n : Nat) : Nat := loop n 2 0
where
  /-- The loop, with fuel. -/
  loop : Nat → Nat → Nat → Nat
    | 0, _, d => d + 1
    | fuel + 1, c, d => if c < n then loop fuel (c * 2) (d + 1) else d + 1

/-- The `zerohashes` table of `NewTreePool`: the all-zero segment, and then, level by level, the hash of two copies
of the level below. Go builds the entries up to the depth, and only those are read. -/
def zerohashes (H : List UInt8 → List UInt8) (segmentSize : Nat) : Nat → List UInt8
  | 0 => List.replicate segmentSize 0
  | i + 1 => H (zerohashes H segmentSize i ++ zerohashes H segmentSize i)

/-- The sizes of a `TreePool`. -/
structure TreePool where
  segmentSize : Nat
  segmentCount : Nat
  deriving DecidableEq, Repr

/-- `Depth`. -/
def TreePool.depth (p : TreePool) : Nat := calculateDepthFor p.segmentCount

/-- `Size`. -/
def TreePool.size (p : TreePool) : Nat := p.segmentCount * p.segmentSize

/-- The number of nodes on the last level of `newTree(segmentSize, depth)`, its leaves: the root's level has one
node, and each of the `depth - 1` levels below it twice as many as the level above. Node `i` of a level has node
`i / 2` of the level above as its parent, and is a left child for even `i`. -/
def newTree.leafCount (depth : Nat) : Nat := loop (depth - 1) 1 2
where
  /-- The loop over the levels: the size of the last level built, and `count`. -/
  loop : Nat → Nat → Nat → Nat
    | 0, prevlevel, _ => prevlevel
    | n + 1, _, count => loop n count (count * 2)

/-- The sequential fields of a `tree`: `cursor`, the index of the open section; `offset` in it; the open `section`;
and `span`. -/
structure Tree where
  cursor : Nat
  offset : Nat
  sec : List UInt8
  span : List UInt8
  deriving DecidableEq, Repr

/-- A tree as `newTree` builds it and `releaseTree` resets it. -/
def Tree.reset (p : TreePool) : Tree := ⟨0, 0, List.replicate (2 * p.segmentSize) 0, []⟩

/-- A reset tree with `span` set, as `ResetWithLength(span)` leaves it. -/
def Tree.withSpan (p : TreePool) (span : List UInt8) : Tree := ⟨0, 0, List.replicate (2 * p.segmentSize) 0, span⟩

/-- A call `writeSection(i, section, double, final)`. -/
structure SectionWrite where
  i : Nat
  sec : List UInt8
  double : Bool
  final : Bool
  deriving DecidableEq, Repr

/-- Go's `copy(dst[off:], src)`: as many bytes of `src` as fit from `off` on. -/
def copyAt (dst : List UInt8) (off : Nat) (src : List UInt8) : List UInt8 :=
  dst.take off ++ src.take (dst.length - off) ++ dst.drop (off + src.length)

/-- A new section of `secsize` zero bytes with `copy(section, src)`. -/
def newSection (secsize : Nat) (src : List UInt8) : List UInt8 := copyAt (List.replicate secsize 0) 0 src

/-- The loop of `Write(b)`. While `smax < len(b)` the open section is full: it goes to `writeSection`, and a new
section takes the bytes of `b` from `smax` on. The tree, `smax` and the calls started, in order. The loop runs at
most `len(b)` times when `secsize > 0`. -/
def writeLoop (secsize : Nat) (b : List UInt8) : Nat → Tree → Nat → Tree × Nat × List SectionWrite
  | 0, t, smax => (t, smax, [])
  | fuel + 1, t, smax =>
    if smax < b.length then
      let w : SectionWrite := ⟨t.cursor, t.sec, true, false⟩
      let r := writeLoop secsize b fuel { t with sec := newSection secsize (b.drop smax), cursor := t.cursor + 1 }
        (smax + secsize)
      (r.1, r.2.1, w :: r.2.2)
    else (t, smax, [])

/-- The end of `Write(b)` from `smax`: the loop, then `t.offset = l - smax + secsize`, which is
`l + secsize - smax` here, the same number while it is not negative. -/
def writeRest (secsize : Nat) (b : List UInt8) (t : Tree) (smax : Nat) : Tree × List SectionWrite × Nat :=
  let r := writeLoop secsize b b.length t smax
  ({ r.1 with offset := b.length + secsize - r.2.1 }, r.2.2, b.length)

/-- `Hasher.Write(b)` on the hasher's tree `t`: the tree after, the `writeSection` calls started, and the count
returned. -/
def write (p : TreePool) (t : Tree) (b : List UInt8) : Tree × List SectionWrite × Nat :=
  let l := b.length
  if l = 0 ∨ l > p.size then (t, [], 0)
  else
    let secsize := 2 * p.segmentSize
    let smax := secsize - t.offset
    if t.offset < secsize then
      -- at the start of the chunk or inside the open section
      let t := { t with sec := copyAt t.sec t.offset b }
      let smax := if smax = 0 then secsize else smax
      if l ≤ smax then ({ t with offset := t.offset + l }, [], l)
      else writeRest secsize b t smax
    else if t.cursor = p.segmentCount * 2 then (t, [], 0)
    else writeRest secsize b t smax

/-- Writes one after another: the tree after, and all the calls they start. -/
def writeAll (p : TreePool) (t : Tree) : List (List UInt8) → Tree × List SectionWrite
  | [] => (t, [])
  | b :: bs =>
    let r := write p t b
    let rs := writeAll p r.1 bs
    (rs.1, r.2.1 ++ rs.2)

/-- The call `Sum` starts: the open section, with its final flag. -/
def sumSection (t : Tree) : SectionWrite := ⟨t.cursor, t.sec, true, true⟩

/-- The calls of `Write` for each of `bs` and then of `Sum`, on the tree `t`. -/
def sessionCalls (p : TreePool) (t : Tree) (bs : List (List UInt8)) : List SectionWrite :=
  (writeAll p t bs).2 ++ [sumSection (writeAll p t bs).1]

/-- What `Sum(b)` returns once the root `s` has come: `b ++ s` without a span, and `b ++ H(span ++ s)` with one. -/
def sumResult (H : List UInt8 → List UInt8) (t : Tree) (b s : List UInt8) : List UInt8 :=
  if t.span.length = 0 then b ++ s else b ++ H (t.span ++ s)

/-- The leaf `writeSection` starts from: `t.leaves[i]` for a double section and `t.leaves[i/2]` for a single one;
`none` where the index is past the leaves and Go panics. -/
def leafOf (p : TreePool) (w : SectionWrite) : Option Nat :=
  let j := if w.double then w.i else w.i / 2
  if j < newTree.leafCount p.depth then some j else none

/-- A `Hasher`: the tree it holds, if it holds one. -/
structure Hasher where
  bmt : Option Tree
  deriving DecidableEq, Repr

/-- `getTree`: the hasher's tree, or a reset one from the pool. -/
def Hasher.getTree (p : TreePool) (h : Hasher) : Tree := h.bmt.getD (Tree.reset p)

/-- `Reset`: the tree goes back to the pool. -/
def Hasher.reset (_ : Hasher) : Hasher := ⟨none⟩

/-- `ResetWithLength(span)`. -/
def Hasher.resetWithLength (p : TreePool) (h : Hasher) (span : List UInt8) : Hasher :=
  ⟨some { h.reset.getTree p with span := span }⟩

/-! ## The reference hasher -/

/-- A `RefHasher`. -/
structure RefHasher where
  maxDataLength : Nat
  sectionLength : Nat
  deriving DecidableEq, Repr

/-- `NewRefHasher(hasher, count)` for a base hash of `hashsize` bytes: `c` doubles from 2 while `c < count`. -/
def newRefHasher (hashsize count : Nat) : RefHasher :=
  ⟨loop count 2 * hashsize, 2 * hashsize⟩
where
  /-- The loop, with fuel. -/
  loop : Nat → Nat → Nat
    | 0, c => c
    | fuel + 1, c => if c < count then loop fuel (c * 2) else c

/-- `hash(data, length)`: a section is hashed as it is, and a longer slice as its two halves' hashes. The recursion
halves `length` until it is `sectionLength`; `fuel` counts the halvings. -/
def RefHasher.hash (rh : RefHasher) (H : List UInt8 → List UInt8) : Nat → List UInt8 → Nat → List UInt8
  | 0, data, _ => H data
  | fuel + 1, data, length =>
    if length = rh.sectionLength then H data
    else
      let length := length / 2
      H (rh.hash H fuel (data.take length) length ++ rh.hash H fuel (data.drop length) length)

/-- `Hash(data)`: the data, cut or padded with zeros to `maxDataLength`, hashed by halves. -/
def RefHasher.hashData (rh : RefHasher) (H : List UInt8 → List UInt8) (data : List UInt8) : List UInt8 :=
  rh.hash H rh.maxDataLength (copyAt (List.replicate rh.maxDataLength 0) 0 data) rh.maxDataLength

end Etherzero.Bmt
