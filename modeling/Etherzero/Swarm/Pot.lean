import Mathlib

/-!
# Proximity order tries (swarm/pot/pot.go, swarm/pot/address.go)

A `Pot` holds its pinned value and its bins. Bin `n` holds the values whose proximity order to the pin is `n.po`,
ordered by `po`, and it is a pot pinned at one of them. The operations build new pots: `add`, `remove` and `Swap`
rebuild the path to the value and share the rest, and `union` merges two pots.

Values are of any type with their key bytes (`toBytes`, the `Address()` of a `BytesAddress`). A pin is `none` in an
empty pot (`nil` in Go), whose key bytes `ToBytes(nil)` are empty. `Swap`'s function and `Pof` read `nil` as `none`
too. Where Go panics (a nil pointer, an index out of range, Swap's `invalid value`), the operations return `none`;
`Swap` returns `some none` for the nil pot it gives back. The keys of one pot have one length, so `other[i]` in
`proximityOrder` is in range.

The bins that `append` builds are taken as new lists. Where Go's `append` writes into the array of the input's
`bins` instead, the input pot changes too; that is not modelled here.
-/

namespace Etherzero.Swarm

/-- `maxkeylen`. -/
def maxkeylen : Nat := 256

/-- The first bit of `oxo` from `start` on that is set, counting from the top bit as 0. -/
def firstSetBit (oxo : UInt8) (start : Nat) : Option Nat :=
  (List.range' start (8 - start)).find? fun j => (oxo >>> (7 - j).toUInt8) &&& 1 != 0

/-- `proximityOrder`: the first bit from `pos` on where the keys differ, and whether there is none. -/
def proximityOrder (one other : List UInt8) (pos : Nat) : Nat × Bool :=
  let differs (i : Nat) : Option Nat :=
    let a := one.getD i 0
    let b := other.getD i 0
    if a = b then none
    else (firstSetBit (a ^^^ b) (if i = pos / 8 then pos % 8 else 0)).map (i * 8 + ·)
  match (List.range' (pos / 8) (one.length - pos / 8)).findSome? differs with
  | some po => (po, false)
  | none => (one.length * 8, true)

variable {α : Type}

/-- `ToBytes`. -/
def toBytes (address : α → List UInt8) : Option α → List UInt8
  | none => []
  | some v => address v

/-- `DefaultPof(max)`: proximity orders from `max` on count as key equality. -/
def defaultPof (max : Nat) (address : α → List UInt8) (one other : Option α) (pos : Nat) : Nat × Bool :=
  let (po, eq) := proximityOrder (toBytes address one) (toBytes address other) pos
  if po ≥ max then (max, true) else (po, eq)

/-- `Pot`. -/
structure Pot (α : Type) where
  pin : Option α
  bins : List (Pot α)
  size : Int
  po : Nat
  deriving Repr

/-- `NewPot`. -/
def newPot (v : Option α) (po : Nat) : Pot α := ⟨v, [], if v.isSome then 1 else 0, po⟩

mutual

/-- `each` with a function that always answers true: the values and proximity orders it is passed, in order, and
what `each` returns. An empty pot ends the iteration. -/
def Pot.visit : Pot α → List (Option α × Nat) × Bool
  | ⟨pin, bins, size, po⟩ =>
    let (vs, next) := visitBins bins
    if !next then (vs, false)
    else if size = 0 then (vs, false)
    else (vs ++ [(pin, po)], true)

/-- The loop of `each` over the bins. -/
def visitBins : List (Pot α) → List (Option α × Nat) × Bool
  | [] => ([], true)
  | n :: rest =>
    let (vs, next) := n.visit
    if !next then (vs, false)
    else
      let (ws, next) := visitBins rest
      (vs ++ ws, next)

end

variable (pof : Option α → Option α → Nat → Nat × Bool)

/-! ## add -/

mutual

/-- `add`: the new pot, the proximity order of `val` to the pin, and whether a key-equal value was there. -/
def add (t : Pot α) (val : α) : Pot α × Nat × Bool :=
  match t with
  | ⟨none, bins, size, po⟩ => (⟨some val, bins, size + 1, po⟩, 0, false)
  | ⟨some pin, bins, size, tpo⟩ =>
    let (po, found) := pof (some pin) (some val) tpo
    if found then (⟨some val, bins, size, tpo⟩, po, true)
    else
      let (bins, found) := addToBins val po bins
      (⟨some pin, bins, if found then size else size + 1, tpo⟩, po, found)

/-- The loop of `add` over the bins, from the first one whose `po` is not below `po`: the value goes into the bin of
its `po`, or into a new bin there. -/
def addToBins (val : α) (po : Nat) : List (Pot α) → List (Pot α) × Bool
  | [] => ([⟨some val, [], 1, po⟩], false)
  | n :: rest =>
    if n.po = po then
      let (p, _, found) := add n val
      (p :: rest, found)
    else if n.po > po then (⟨some val, [], 1, po⟩ :: n :: rest, false)
    else
      let (bins, found) := addToBins val po rest
      (n :: bins, found)

end

/-! ## remove -/

/-- How the loop of `remove` over the bins ends. -/
inductive RemoveLoop (α : Type) where
  /-- at a bin whose `po` is above `po`: `remove` returns `t` -/
  | stop
  /-- after the bin of `po`, or after the last bin: the bins, the proximity order, and whether the value was found -/
  | done (bins : List (Pot α)) (po : Nat) (found : Bool)

mutual

/-- `remove`; `none` where `t.bins[len(t.bins)-1]` is out of range. -/
def remove (t : Pot α) (val : α) : Option (Pot α × Nat × Bool) :=
  match t with
  | ⟨pin, bins, size, tpo⟩ =>
    let (po, found) := pof pin (some val) tpo
    if found then
      if size - 1 = 0 then some (⟨none, [], 0, tpo⟩, po, true)
      else
        match bins.getLast? with
        | none => none
        | some last => some (⟨last.pin, bins.dropLast ++ last.bins, size - 1, tpo⟩, tpo, true)
    else
      match removeFromBins val po bins with
      | none => none
      | some .stop => some (t, po, false)
      | some (.done bins po found) => some (⟨some val, bins, if found then size - 1 else size, tpo⟩, po, found)

/-- The loop of `remove` over the bins: the value is taken out of the bin of `po`, which goes if it is left empty. -/
def removeFromBins (val : α) (po : Nat) : List (Pot α) → Option (RemoveLoop α)
  | [] => some (.done [] po false)
  | n :: rest =>
    if n.po = po then
      match remove n val with
      | none => none
      | some (p, po, found) => some (.done ((if p.pin.isSome then [p] else []) ++ rest) po found)
    else if n.po > po then some .stop
    else
      match removeFromBins val po rest with
      | some (.done bins po found) => some (.done (n :: bins) po found)
      | r => r

end

/-! ## Swap -/

/-- `getPos`: the bin of `po` if there is one, and the index of the first bin whose `po` is not below `po`. -/
def getPos (bins : List (Pot α)) (po : Nat) : Option (Pot α) × Nat :=
  match bins.findIdx? fun n => po ≤ n.po with
  | some i => (bins[i]?.filter fun n => n.po = po, i)
  | none => (none, bins.length)

/-- What `Swap` returns: the pot (`none` for `nil`), the proximity order, whether the key was found, and whether the
pot changed. -/
abbrev SwapResult (α : Type) := Option (Pot α) × Nat × Bool × Bool

variable [DecidableEq α] (f : Option α → Option α)

/-- `Swap` at a key with no bin: `f(nil)` is inserted as a new bin of `po` if it is not nil, where it has to be
key-equal to `k`. -/
def swapInsert (k : α) (po : Nat) (t : Pot α) (pre rest : List (Pot α)) : Option (SwapResult α) :=
  match f none with
  | none => some (some t, po, false, false)
  | some val =>
    if !(pof (some val) (some k) po).2 then none
    else some (some ⟨t.pin, pre ++ ⟨some val, [], 1, po⟩ :: rest, t.size + 1, t.po⟩, po, false, true)

mutual

/-- `Swap(t, k, pof, f)`; `none` where it panics. -/
def swap (t : Pot α) (k : α) : Option (SwapResult α) :=
  match t with
  | ⟨none, _, _, tpo⟩ =>
    match f none with
    | none => some (none, 0, false, false)
    | some val => some (some (newPot (some val) tpo), 0, false, true)
  | ⟨some pin, bins, size, tpo⟩ =>
    let (po, found) := pof (some k) (some pin) tpo
    if found then
      match f (some pin) with
      | none =>
        -- remove the pin, by merging the last bin
        if size - 1 = 0 then some (some ⟨none, [], 0, tpo⟩, po, true, true)
        else
          match bins.getLast? with
          | none => none
          | some last => some (some ⟨last.pin, bins.dropLast ++ last.bins, size - 1, tpo⟩, po, true, true)
      | some val =>
        if val = pin then some (some t, po, true, false)
        else some (some ⟨some val, bins, size, tpo⟩, po, true, true)
    else swapInBins k po t [] bins

/-- The recursive step of `Swap` at `t`, whose bins are `pre ++ rest` and whose bins before `rest` have a `po` below
`po`: the swap goes into the bin of `po`, or makes one. -/
def swapInBins (k : α) (po : Nat) (t : Pot α) (pre : List (Pot α)) : List (Pot α) → Option (SwapResult α)
  | n :: rest =>
    if n.po < po then swapInBins k po t (pre ++ [n]) rest
    else if n.po = po then
      match swap n k with
      | none => none
      | some (p, po, found, change) =>
        if !change then some (some t, po, found, false)
        else
          match p with
          -- `p.size` of a nil `p`
          | none => none
          | some p =>
            if p.size = 0 then some (some ⟨t.pin, pre ++ rest, t.size - 1, t.po⟩, po, found, true)
            else some (some ⟨t.pin, pre ++ p :: rest, t.size + (p.size - n.size), t.po⟩, po, found, true)
    else swapInsert pof f k po t pre (n :: rest)
  | [] => swapInsert pof f k po t pre []

end

/-! ## union -/

/-- The variables of `union`'s outer loop at the start of a round. -/
structure UnionRound (α : Type) where
  pin0 : Option α
  pin1 : Option α
  bins0 : List (Pot α)
  bins1 : List (Pot α)
  i0 : Nat
  i1 : Nat
  po : Nat
  eq : Bool
  common : Int
  bins : List (Pot α)
  mis : List Int

/-- The variables of `union`'s inner loop. -/
structure UnionMerge (α : Type) where
  n0 : Option (Pot α)
  n1 : Option (Pot α)
  p0 : Nat
  p1 : Nat
  a0 : Bool
  a1 : Bool
  i0 : Nat
  i1 : Nat
  bins : List (Pot α)
  mis : List Int

/-- The bin at `i` of `bins` while `bins[i].po <= po`: the bin, its `po`, and whether that is `po`. -/
def nextBin (bins : List (Pot α)) (i po : Nat) : Option (Pot α × Nat × Bool) :=
  match bins[i]? with
  | some n => if n.po ≤ po then some (n, n.po, n.po = po) else none
  | none => none

mutual

/-- `union` of two pots that are not nil, with `fuel` for its loops and recursion: the union and the number of common
values; `none` when the fuel runs out. -/
def unionPots : Nat → Pot α → Pot α → Option (Pot α × Int)
  | 0, _, _ => none
  | fuel + 1, t0, t1 =>
    if t0.size = 0 then some (t1, 0)
    else if t1.size = 0 then some (t0, 0)
    else
      let (po, eq) := pof t0.pin t1.pin 0
      (unionRounds fuel ⟨t0.pin, t1.pin, t0.bins, t1.bins, 0, 0, po, eq, 0, [], []⟩).map fun (pin, bins, common) =>
        (⟨pin, bins, t0.size + t1.size - common, t0.po⟩, common)

/-- The rounds of `union`'s outer loop: the pin, the bins and the number of common values it ends with. -/
def unionRounds : Nat → UnionRound α → Option (Option α × List (Pot α) × Int)
  | 0, _ => none
  | fuel + 1, r =>
    match mergeBins fuel r.po r.bins0 r.bins1 ⟨none, none, 0, 0, false, false, r.i0, r.i1, r.bins, r.mis⟩ with
    | none => none
    | some m =>
      if r.eq then some (r.pin1, m.bins, r.common + 1 + m.mis.sum)
      else
        -- the pin of this round and its bins beyond `po` become a bin of the other side
        let i := if (r.bins0[m.i0]?.map fun n => decide (n.po = r.po)) = some true then m.i0 + 1 else m.i0
        let np : Pot α := ⟨r.pin0, r.bins0.drop i, ((r.bins0.drop i).map (·.size)).sum + 1, r.po⟩
        match m.n0 with
        | none =>
          unionRounds fuel
            ⟨r.pin1, r.pin1, r.bins1, [np], m.i1, 0, maxkeylen + 1, true, r.common - 1, m.bins, m.mis⟩
        | some n0 =>
          let (po, eq) := pof r.pin1 n0.pin n0.po
          unionRounds fuel ⟨r.pin1, n0.pin, r.bins1, np :: n0.bins, m.i1, 0, po, eq, r.common, m.bins, m.mis⟩

/-- `union`'s inner loop, which merges the bins of both sides up to `po`. -/
def mergeBins : Nat → Nat → List (Pot α) → List (Pot α) → UnionMerge α → Option (UnionMerge α)
  | 0, _, _, _, _ => none
  | fuel + 1, po, bins0, bins1, m =>
    let (n0, p0, a0) := match (if m.a0 then none else nextBin bins0 m.i0 po) with
      | some (n, p, a) => (some n, p, a)
      | none => (m.n0, m.p0, true)
    let (n1, p1, a1) := match (if m.a1 then none else nextBin bins1 m.i1 po) with
      | some (n, p, a) => (some n, p, a)
      | none => (m.n1, m.p1, true)
    let m := { m with n0 := n0, n1 := n1, p0 := p0, p1 := p1, a0 := a0, a1 := a1 }
    if a0 && a1 then some m
    else if (p0 < p1 || a1) && !a0 then
      mergeBins fuel po bins0 bins1 { m with bins := m.bins ++ n0.toList, i0 := m.i0 + 1, n0 := none }
    else if (p1 < p0 || a0) && !a1 then
      mergeBins fuel po bins0 bins1 { m with bins := m.bins ++ n1.toList, i1 := m.i1 + 1, n1 := none }
    else if p1 < po then
      match n0, n1 with
      | some n0, some n1 =>
        match unionPots fuel n0 n1 with
        | none => none
        | some (u, c) =>
          mergeBins fuel po bins0 bins1
            { m with bins := m.bins ++ [u], mis := m.mis ++ [c], i0 := m.i0 + 1, i1 := m.i1 + 1, n0 := none,
                     n1 := none }
      | _, _ => none
    else mergeBins fuel po bins0 bins1 m

end

/-- `Union(t0, t1, pof)`, with `fuel`: the union and the number of common values. -/
def union (fuel : Nat) (t0 t1 : Option (Pot α)) : Option (Option (Pot α) × Int) :=
  match t0, t1 with
  | none, t1 => some (t1, 0)
  | some t0, none => if t0.size = 0 then some (none, 0) else some (some t0, 0)
  | some t0, some t1 => (unionPots pof fuel t0 t1).map fun (u, c) => (some u, c)

end Etherzero.Swarm
