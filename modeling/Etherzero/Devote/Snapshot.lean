import Mathlib
import Etherzero.Devote.DevoteDB

/-!
# Devote: the snapshot's witness election (snapshot.go)

At the first block of a cycle, `election` ranks the candidate masternodes and stores the first of them as the cycle's
witnesses. Before that, `uncast` drops from the candidates the witnesses of the previous cycle that sealed no block in
it; `calculate` gives each candidate a weight, a hash of its id and the parent block's hash; `sort.Sort` orders them by
`sortableAddresses.Less`. Keccak-512 is a parameter. So is the order in which the loop over the map `calculate`
builds visits its entries: Go leaves it unspecified, and the statements about election hold for every such order.
-/

namespace Etherzero.Devote

/-- The two fields of a header that election reads: its time and its hash. -/
structure Header where
  time : UInt64
  hash : List UInt8

/-- The snapshot: the devote database and the time of the block being finalized. -/
structure Snapshot where
  devoteDB : DevoteDB
  timeStamp : UInt64

/-- `sortableAddress`: a candidate's id and its weight. -/
structure SortableAddress where
  nodeid : List UInt8
  weight : Nat
  deriving DecidableEq, Repr

/-- `sortableAddresses.Less`: the larger weight first, and of equal weights the larger id. -/
def SortableAddress.less (p q : SortableAddress) : Bool :=
  if p.weight < q.weight then false
  else if p.weight > q.weight then true
  else decide (p.nodeid > q.nodeid)

/-- The order `sort.Sort` leaves the list in: no element is `Less` than one before it. -/
def SortableAddress.Before (p q : SortableAddress) : Prop := q.less p = false

instance : DecidableRel SortableAddress.Before := fun p q =>
  inferInstanceAs (Decidable (q.less p = false))

/-- `sort.Sort` by `Less`. Go does not promise a stable sort; on the lists election sorts, whose ids are distinct, every
sort gives this one result. -/
def sortAddresses (ps : List SortableAddress) : List SortableAddress := ps.insertionSort SortableAddress.Before

/-- `binary.LittleEndian.Uint32` of the first four bytes. -/
def littleEndianUint32 (b : List UInt8) : Nat :=
  (b.getD 0 0).toNat + (b.getD 1 0).toNat * 2 ^ 8 + (b.getD 2 0).toNat * 2 ^ 16 + (b.getD 3 0).toNat * 2 ^ 24

/-- The weight `calculate` gives a candidate: the little-endian `uint32` of Keccak-512 of eight zero bytes, the id and
the parent's hash. -/
def weight (keccak512 : List UInt8 → List UInt8) (parentHash masternode : List UInt8) : Nat :=
  littleEndianUint32 (keccak512 (List.replicate 8 0 ++ masternode ++ parentHash))

/-- `calculate`: the map from each candidate to its weight. -/
def calculate (keccak512 : List UInt8 → List UInt8) (parent : Header) (nodes : List (List UInt8)) :
    AList (fun _ : List UInt8 => Nat) :=
  nodes.foldl (fun list masternode => list.insert masternode (weight keccak512 parent.hash masternode)) ∅

/-- One turn of `uncast`'s inner loop at index `i`, on the array and `j`: a node other than the witness is written to
position `j`, which moves on; Go's `range` reads the array at `i` as it is then. -/
def uncastStep (witness : List UInt8) (acc : List (List UInt8) × Nat) (i : Nat) : List (List UInt8) × Nat :=
  let s := acc.1.getD i []
  if s ≠ witness then (acc.1.set acc.2 s, acc.2 + 1) else acc

/-- One pass of `uncast`'s inner loop for one witness, over every index of the array. The array keeps its length. -/
def uncastPass (witness : List UInt8) (nodes : List (List UInt8)) : List (List UInt8) :=
  ((List.range nodes.length).foldl (uncastStep witness) (nodes, 0)).1

/-- `uncast`: the candidates after removing, one pass each, the witnesses of `cycle` that sealed no block in it. When
the witness list cannot be read or is empty, the candidates come back as they were, with an error. -/
def uncast (snap : Snapshot) (cycle : UInt64) (nodes : List (List UInt8)) : List (List UInt8) × Option DevoteErr :=
  match snap.devoteDB.getWitnesses cycle with
  | .error err => (nodes, some (.getWitness err))
  | .ok witnesses =>
    if witnesses.length = 0 then (nodes, some .noWitness)
    else
      let needUncastWitnesses :=
        witnesses.filter fun witness => snap.devoteDB.getStatsNumber (putUint64 cycle ++ witness) < 1
      if needUncastWitnesses.length ≤ 0 then (nodes, none)
      else (needUncastWitnesses.foldl (fun nodes witness => uncastPass witness nodes) nodes, none)

/-- The candidates of a turn of election's loop: after a parent outside the genesis cycle, those `uncast` leaves of
the previous cycle's. -/
def electionList (snap : Snapshot) (preisgenesis : Bool) (prevcycle : UInt64) (nodes : List (List UInt8)) :
    List (List UInt8) :=
  if preisgenesis then nodes else (uncast snap prevcycle nodes).1

/-- The order in which `for masternode, cnt := range count` visits the entries of the map of the loop's `i`-th turn. -/
def MapOrder := Nat → List (Σ _ : List UInt8, Nat) → List (Σ _ : List UInt8, Nat)

/-- A map order that visits each entry once. -/
def MapOrder.Perm (order : MapOrder) : Prop := ∀ i es, (order i es).Perm es

/-- One turn of election's loop: the candidates after `uncast` (which rewrites the caller's array in place), ranked,
cut to `maxWitnessSize` and stored as the witnesses of `currentcycle`; too few of them is an error. -/
def electionStep (keccak512 : List UInt8 → List UInt8) (order : MapOrder) (parent : Header) (preisgenesis : Bool)
    (prevcycle currentcycle : UInt64) (safeSize : Int) (maxWitnessSize : Int) (i : Nat) (snap : Snapshot)
    (nodes : List (List UInt8)) : Except DevoteErr (List (List UInt8) × List (List UInt8)) × Snapshot :=
  let list := electionList snap preisgenesis prevcycle nodes
  let count := calculate keccak512 parent list
  let masternodes := (order i count.entries).map fun e => SortableAddress.mk e.1 e.2
  let current := masternodes.length
  if (current : Int) < safeSize then (.error (.tooFewMasternodes currentcycle current safeSize), snap)
  else
    let sorted := sortAddresses masternodes
    if (sorted.length : Int) > maxWitnessSize ∧ maxWitnessSize < 0 then (.error .sliceBounds, snap)
    else
      let kept := if (sorted.length : Int) > maxWitnessSize then sorted.take maxWitnessSize.toNat else sorted
      let sortedWitnesses := kept.map SortableAddress.nodeid
      let devoteDB := match snap.devoteDB.setWitnesses currentcycle sortedWitnesses with
        | .ok d => d
        | .error _ => snap.devoteDB
      (.ok (list, sortedWitnesses), { snap with devoteDB := devoteDB })

/-- The loop `for i := prevcycle; i < currentcycle; i++`, run for `n` turns from the turn `i`. -/
def electionLoop (keccak512 : List UInt8 → List UInt8) (order : MapOrder) (parent : Header) (preisgenesis : Bool)
    (prevcycle currentcycle : UInt64) (safeSize maxWitnessSize : Int) :
    Nat → Nat → Snapshot → List (List UInt8) → List (List UInt8) → Except DevoteErr (List (List UInt8)) × Snapshot
  | 0, _, snap, _, sortedWitnesses => (.ok sortedWitnesses, snap)
  | n + 1, i, snap, nodes, _ =>
    match electionStep keccak512 order parent preisgenesis prevcycle currentcycle safeSize maxWitnessSize i snap
        nodes with
    | (.error err, snap') => (.error err, snap')
    | (.ok (nodes', sortedWitnesses), snap') =>
      electionLoop keccak512 order parent preisgenesis prevcycle currentcycle safeSize maxWitnessSize n (i + 1) snap'
        nodes' sortedWitnesses

/-- `election`: the witnesses of the snapshot's cycle, elected once for each cycle since the parent's; after a parent
outside the genesis cycle only the last of them is elected, from the candidates `uncast` leaves. -/
def election (keccak512 : List UInt8 → List UInt8) (order : MapOrder) (snap : Snapshot) (genesis parent : Header)
    (nodes : List (List UInt8)) (safeSize : Int) (maxWitnessSize : Int) :
    Except DevoteErr (List (List UInt8)) × Snapshot :=
  let genesiscycle := genesis.time / epoch
  let currentcycle := snap.timeStamp / epoch
  let preisgenesis := decide (parent.time / epoch = genesiscycle)
  let prevcycle :=
    if !preisgenesis && parent.time / epoch < currentcycle then currentcycle - 1 else parent.time / epoch
  electionLoop keccak512 order parent preisgenesis prevcycle currentcycle safeSize maxWitnessSize
    (currentcycle.toNat - prevcycle.toNat) prevcycle.toNat snap nodes []

/-- `recording`: `Rolling` for the block of time `header` sealed by `witness` on a parent of time `parent`; the commit
that follows writes the tries to the node database, which the map model of a trie leaves out. -/
def Snapshot.recording (snap : Snapshot) (parent header : UInt64) (witness : List UInt8) : Snapshot :=
  { snap with devoteDB := snap.devoteDB.rolling parent header witness }

/-- A block as `Finalize` passes it to `recording`: its time and its witness. -/
structure Block where
  time : UInt64
  witness : List UInt8
  deriving DecidableEq, Repr

/-- The snapshot after `Finalize` recorded each block of a chain on top of its parent, from a parent of time
`parentTime`: each block's devote database is the one its parent's protocol reopens. -/
def recordChain : Snapshot → UInt64 → List Block → Snapshot
  | snap, _, [] => snap
  | snap, parentTime, b :: bs => recordChain (snap.recording parentTime b.time b.witness) b.time bs

end Etherzero.Devote
