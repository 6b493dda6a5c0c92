import Mathlib
import Etherzero.P2p.Discover
import Etherzero.P2p.Netutil

/-!
# The node table and its upkeep (p2p/discover/table.go, p2p/enode/node.go)

Each node goes into the bucket of its log distance to the local node. A bucket holds at most `bucketSize` live
entries, the most recently seen first, and at most `maxReplacements` replacements. Every node that enters a bucket,
as an entry or a replacement, has its IP counted in the bucket's and the table's `DistinctNetSet`, unless it is a LAN
address; a count that is full turns the node away. The table changes through `add` (also for the nodes of findnode
replies and the seed nodes), `addThroughPing`, `stuff`, `delete` (also findnode's drop of a failing node) and the
revalidation of a bucket's last entry, which bumps it on a pong and replaces it otherwise.

Nodes are of any type with an ID and an IP (`nodeID`, `nodeIP`); `addedAt` and the added-node hook, which nothing
modelled reads, are left out. The random choices (the replacement `replace` takes, and the bucket and node a
revalidation picks) are the arguments of the revalidation step, so every choice is covered. The mutex makes each
operation atomic; revalidation releases it while it pings, so its node and bucket are taken as any, and `replace`
checks again that the node is still last.

`ReadRandomNodes` reads the table without changing it: the values of `tab.rand.Intn` its shuffle draws are an
argument, and so is the length of the buffer it fills.
-/

namespace Etherzero.Discover

open Etherzero.Netutil

/-- `bits.LeadingZeros8`. -/
def leadingZeros8 (x : UInt8) : Nat := ((List.range 8).reverse.takeWhile fun i => !x.toNat.testBit i).length

/-- The loop of `LogDist`: the leading zero bits of `a XOR b`. -/
def logDistLoop : List UInt8 → List UInt8 → Nat
  | a :: as, b :: bs =>
    let x := a ^^^ b
    if x = 0 then 8 + logDistLoop as bs else leadingZeros8 x
  | _, _ => 0

/-- `enode.LogDist`. -/
def logDist (a b : ID) : Nat := a.toList.length * 8 - logDistLoop a.toList b.toList

/-- `hashBits`. -/
def hashBits : Nat := 32 * 8

/-- `nBuckets`. -/
def nBuckets : Nat := hashBits / 15

/-- `bucketMinDistance`, the log distance of the closest bucket. -/
def bucketMinDistance : Nat := hashBits - nBuckets

/-- `maxReplacements`. -/
def maxReplacements : Nat := 10

/-- `bucketIPLimit` and `bucketSubnet`: at most 2 addresses of a bucket from one /24. -/
def bucketIPLimit : Nat := 2

def bucketSubnet : Nat := 24

/-- `tableIPLimit` and `tableSubnet`: at most 10 addresses of the table from one /24. -/
def tableIPLimit : Nat := 10

def tableSubnet : Nat := 24

theorem logDist_le (a b : ID) : logDist a b ≤ hashBits := by
  simp [logDist, hashBits]

/-- `Table.bucket`, by index: the bucket of an ID given the local node's. -/
def bucketIndex (selfID id : ID) : Fin nBuckets :=
  let d := logDist selfID id
  if d ≤ bucketMinDistance then ⟨0, by decide⟩
  else
    ⟨d - bucketMinDistance - 1, by
      have := logDist_le selfID id
      simp only [nBuckets, bucketMinDistance, hashBits] at this ⊢
      omega⟩

/-- `bucket`. -/
structure TableBucket (Node : Type) where
  entries : List Node
  replacements : List Node
  ips : DistinctNetSet

/-- `Table`, with the fields its upkeep reads: `initDone` is whether the first refresh has ended. -/
structure NodeTable (Node : Type) where
  buckets : Vector (TableBucket Node) nBuckets
  ips : DistinctNetSet
  self : Node
  initDone : Bool

variable {Node : Type} (nodeID : Node → ID) (nodeIP : Node → IP)

/-- `bucket.bump`: the entries with the one of `n`'s ID moved to the front as `n`, if there is one. -/
def bump (entries : List Node) (n : Node) : Option (List Node) :=
  (entries.findIdx? fun e => nodeID e == nodeID n).map fun i => n :: entries.take i ++ entries.drop (i + 1)

/-- `pushNode`: `n` at the front, keeping at most `max` items, and the item pushed out. Go indexes the last item
of an empty list when `max` is 0; the table calls it with `bucketSize` and `maxReplacements`. -/
def pushNode (list : List Node) (n : Node) (max : Nat) : List Node × Option Node :=
  if list.length < max then (n :: list, none) else (n :: list.dropLast, list.getLast?)

/-- `deleteNode`: the first item with `n`'s ID removed. -/
def deleteNode (list : List Node) (n : Node) : List Node := list.eraseP fun e => nodeID e == nodeID n

/-- The table with the bucket at `bi` replaced. -/
def NodeTable.setBucket (tab : NodeTable Node) (bi : Fin nBuckets) (b : TableBucket Node) : NodeTable Node :=
  { tab with buckets := tab.buckets.set bi b }

/-- `Table.bucket`. -/
def NodeTable.bucket (tab : NodeTable Node) (id : ID) : Fin nBuckets := bucketIndex (nodeID tab.self) id

/-- `Table.addIP`. -/
def NodeTable.addIP (tab : NodeTable Node) (bi : Fin nBuckets) (ip : IP) : NodeTable Node × Bool :=
  if isLAN ip then (tab, true)
  else
    let (tips, added) := tab.ips.add ip
    if !added then (tab, false)
    else
      let b := tab.buckets.get bi
      let (bips, added) := b.ips.add ip
      -- the bucket's range is full: the table's count is taken back
      if !added then ({ tab with ips := tips.remove ip }, false)
      else ({ tab.setBucket bi { b with ips := bips } with ips := tips }, true)

/-- `Table.removeIP`. -/
def NodeTable.removeIP (tab : NodeTable Node) (bi : Fin nBuckets) (ip : IP) : NodeTable Node :=
  if isLAN ip then tab
  else
    let b := tab.buckets.get bi
    { tab.setBucket bi { b with ips := b.ips.remove ip } with ips := tab.ips.remove ip }

/-- `Table.addReplacement`. -/
def NodeTable.addReplacement (tab : NodeTable Node) (bi : Fin nBuckets) (n : Node) : NodeTable Node :=
  if (tab.buckets.get bi).replacements.any fun e => nodeID e == nodeID n then tab
  else
    let (tab, added) := tab.addIP bi (nodeIP n)
    if !added then tab
    else
      let b := tab.buckets.get bi
      let (replacements, removed) := pushNode b.replacements n maxReplacements
      let tab := tab.setBucket bi { b with replacements := replacements }
      match removed with
      | some r => tab.removeIP bi (nodeIP r)
      | none => tab

/-- `Table.deleteInBucket`: the IP is given back whether or not the node was in the bucket. -/
def NodeTable.deleteInBucket (tab : NodeTable Node) (bi : Fin nBuckets) (n : Node) : NodeTable Node :=
  let b := tab.buckets.get bi
  (tab.setBucket bi { b with entries := deleteNode nodeID b.entries n }).removeIP bi (nodeIP n)

/-- `Table.replace`: `ri` is the choice of `rand.Intn`, taken modulo the number of replacements. -/
def NodeTable.replace (tab : NodeTable Node) (bi : Fin nBuckets) (last : Node) (ri : Nat) :
    NodeTable Node × Option Node :=
  let b := tab.buckets.get bi
  match b.entries.getLast? with
  | none => (tab, none)
  | some e =>
    -- the entry has moved since it was picked
    if nodeID e ≠ nodeID last then (tab, none)
    else
      match b.replacements with
      | [] => (tab.deleteInBucket nodeID nodeIP bi last, none)
      | r₀ :: rs =>
        let r := (r₀ :: rs).get ⟨ri % (rs.length + 1), Nat.mod_lt _ (Nat.succ_pos _)⟩
        let b := { b with
          replacements := deleteNode nodeID (r₀ :: rs) r
          entries := b.entries.set (b.entries.length - 1) r }
        ((tab.setBucket bi b).removeIP bi (nodeIP last), some r)

/-- `Table.bumpOrAdd`: true when `n` is in the bucket afterwards. -/
def NodeTable.bumpOrAdd (tab : NodeTable Node) (bi : Fin nBuckets) (n : Node) : NodeTable Node × Bool :=
  let b := tab.buckets.get bi
  match bump nodeID b.entries n with
  | some entries => (tab.setBucket bi { b with entries := entries }, true)
  | none =>
    if b.entries.length ≥ bucketSize then (tab, false)
    else
      let (tab, added) := tab.addIP bi (nodeIP n)
      if !added then (tab, false)
      else
        let b := tab.buckets.get bi
        let b := { b with
          entries := (pushNode b.entries n bucketSize).1
          replacements := deleteNode nodeID b.replacements n }
        (tab.setBucket bi b, true)

/-- `Table.add`. -/
def NodeTable.add (tab : NodeTable Node) (n : Node) : NodeTable Node :=
  if nodeID n = nodeID tab.self then tab
  else
    let bi := tab.bucket nodeID (nodeID n)
    let (tab, added) := tab.bumpOrAdd nodeID nodeIP bi n
    if added then tab else tab.addReplacement nodeID nodeIP bi n

/-- `Table.addThroughPing`. -/
def NodeTable.addThroughPing (tab : NodeTable Node) (n : Node) : NodeTable Node :=
  if !tab.initDone then tab else tab.add nodeID nodeIP n

/-- `Table.stuff`. -/
def NodeTable.stuff (tab : NodeTable Node) (nodes : List Node) : NodeTable Node :=
  nodes.foldl (fun tab n =>
    if nodeID n = nodeID tab.self then tab
    else
      let bi := tab.bucket nodeID (nodeID n)
      if (tab.buckets.get bi).entries.length < bucketSize then (tab.bumpOrAdd nodeID nodeIP bi n).1 else tab) tab

/-- `Table.delete`. -/
def NodeTable.delete (tab : NodeTable Node) (n : Node) : NodeTable Node :=
  tab.deleteInBucket nodeID nodeIP (tab.bucket nodeID (nodeID n)) n

/-- The end of `doRevalidate`, once `last` of bucket `bi` has answered the ping (`pong`) or not. -/
def NodeTable.revalidate (tab : NodeTable Node) (bi : Fin nBuckets) (last : Node) (pong : Bool) (ri : Nat) :
    NodeTable Node :=
  if pong then
    let b := tab.buckets.get bi
    match bump nodeID b.entries last with
    | some entries => tab.setBucket bi { b with entries := entries }
    | none => tab
  else (tab.replace nodeID nodeIP bi last ri).1

/-- The operations that change the table. -/
inductive TableOp (Node : Type) where
  | add (n : Node)
  | addThroughPing (n : Node)
  | stuff (nodes : List Node)
  | delete (n : Node)
  | revalidate (bi : Fin nBuckets) (last : Node) (pong : Bool) (ri : Nat)
  | setInitDone

/-- One operation. -/
def NodeTable.apply (tab : NodeTable Node) : TableOp Node → NodeTable Node
  | .add n => tab.add nodeID nodeIP n
  | .addThroughPing n => tab.addThroughPing nodeID nodeIP n
  | .stuff nodes => tab.stuff nodeID nodeIP nodes
  | .delete n => tab.delete nodeID nodeIP n
  | .revalidate bi last pong ri => tab.revalidate nodeID nodeIP bi last pong ri
  | .setInitDone => { tab with initDone := true }

/-- Operations one after another. -/
def NodeTable.run (tab : NodeTable Node) (ops : List (TableOp Node)) : NodeTable Node :=
  ops.foldl (fun tab op => tab.apply nodeID nodeIP op) tab

/-- The table `newTable` makes, before its seed nodes are added. -/
def newTable (self : Node) : NodeTable Node :=
  ⟨Vector.replicate nBuckets ⟨[], [], ⟨bucketSubnet, bucketIPLimit, fun _ => 0⟩⟩,
    ⟨tableSubnet, tableIPLimit, fun _ => 0⟩, self, false⟩

/-- The entries of the buckets, which is what `closest` and `lookup` read. -/
def NodeTable.toTable (tab : NodeTable Node) : Table Node :=
  ⟨tab.buckets.toList.map fun b => ⟨b.entries⟩, tab.self⟩

/-! ## ReadRandomNodes -/

/-- `tab.len()`. -/
def NodeTable.len (tab : NodeTable Node) : Nat := (tab.buckets.toList.map fun b => b.entries.length).sum

/-- The shuffle of `ReadRandomNodes` from index `i` down to 1: `draws i` is the value `tab.rand.Intn(len(buckets))`
gives at `i`. -/
def shuffleBuckets (draws : Nat → Nat) : Nat → Array (List Node) → Array (List Node)
  | 0, buckets => buckets
  | i + 1, buckets =>
    if h : i + 1 < buckets.size ∧ draws (i + 1) < buckets.size then
      shuffleBuckets draws i (buckets.swap (i + 1) (draws (i + 1)) h.1 h.2)
    -- not taken: `i` starts below the count of buckets and `Intn` answers below it
    else buckets

/-- The loop of `ReadRandomNodes` that moves the head of bucket `j` into `buf[i]`, with `k` slots of `buf` left: the
nodes it writes, and `i` where it ends. -/
def fillBuf : Nat → Nat → Nat → List (List Node) → List Node × Nat
  | 0, i, _, _ => ([], i)
  | k + 1, i, j, buckets =>
    match buckets[j]? with
    | some b =>
      match b with
      | n :: rest =>
        let buckets := buckets.set j rest
        let buckets := if b.length = 1 then buckets.eraseIdx j else buckets
        if buckets.length = 0 then ([n], i)
        else
          let r := fillBuf k (i + 1) ((j + 1) % buckets.length) buckets
          (n :: r.1, r.2)
      -- not taken: the buckets the loop walks hold entries, and `j` is below their count
      | [] => ([], i)
    | none => ([], i)

/-- `ReadRandomNodes` into a buffer of `bufLen` slots: the nodes it writes to the front of the buffer, and the count
it returns. -/
def NodeTable.readRandomNodes (tab : NodeTable Node) (draws : Nat → Nat) (bufLen : Nat) : List Node × Nat :=
  if !tab.initDone then ([], 0)
  else
    let buckets := (tab.buckets.toList.filter fun b => b.entries.length > 0).map (·.entries)
    if buckets.length = 0 then ([], 0)
    else
      let buckets := (shuffleBuckets draws (buckets.length - 1) buckets.toArray).toList
      let r := fillBuf bufLen 0 0 buckets
      (r.1, r.2 + 1)

end Etherzero.Discover
