import Mathlib
import Etherzero.Lib.Search

/-!
# Closest nodes and lookups (p2p/discover/table.go, p2p/enode/node.go)

`DistCmp` compares the XOR distances of two IDs to a target, byte by byte from the first. `nodesByDistance.push` finds
with `sort.Search` the first entry farther from the target than the new node and puts the node there, shifting the
rest down; a full list drops its last entry, or the node when it is farther than all. `Table.closest` pushes every
node of every bucket. `Table.lookup` starts from the closest table nodes, asks at most `alpha` of the closest nodes
it has not asked, and pushes the nodes of each reply that it has not seen in a reply before, until no query is
pending.

Nodes are of any type with an ID (`nodeID`): their other fields are not read here. The lookup's target is the ID the
caller's key hashes to; the replies to its queries come in any order with any content, so they are taken as a list
of reply contents in the order they arrive; a lookup that waits for a reply no query will send, or that runs past
its fuel, has no result. The queries' effects on the table (`add`, `delete`) are left out: the lookup reads the table
only at its start, and `refreshed` is the table after the refresh it waits for when that start is empty.
-/

namespace Etherzero.Discover

/-- `enode.ID`. -/
abbrev ID := Vector UInt8 32

/-- The loop of `DistCmp` over the bytes of the target and of the two IDs. -/
def distCmpLoop : List UInt8 → List UInt8 → List UInt8 → Int
  | t :: ts, a :: as, b :: bs =>
    let da := a ^^^ t
    let db := b ^^^ t
    if da > db then 1 else if da < db then -1 else distCmpLoop ts as bs
  | _, _, _ => 0

/-- `DistCmp`: 1 if `b` is closer to the target, -1 if `a` is, 0 if they are as close. -/
def distCmp (target a b : ID) : Int := distCmpLoop target.toList a.toList b.toList

/-- `alpha`, the concurrency of a lookup. -/
def alpha : Nat := 3

/-- `bucketSize`. -/
def bucketSize : Nat := 16

/-- `nodesByDistance`. -/
structure NodesByDistance (Node : Type) where
  entries : List Node
  target : ID

/-- A bucket's live entries; its replacements and IP counts are not read here. -/
structure Bucket (Node : Type) where
  entries : List Node

/-- The buckets of a `Table` and its own node. -/
structure Table (Node : Type) where
  buckets : List (Bucket Node)
  self : Node

variable {Node : Type} (nodeID : Node → ID)

/-- `nodesByDistance.push`. -/
def NodesByDistance.push (h : NodesByDistance Node) (n : Node) (maxElems : Nat) : NodesByDistance Node :=
  let ix := Search.search h.entries.length fun i =>
    (h.entries[i]?).elim false fun e => decide (distCmp h.target (nodeID e) (nodeID n) > 0)
  let entries := if h.entries.length < maxElems then h.entries ++ [n] else h.entries
  if ix = entries.length then { h with entries := entries }
  else
    -- copy(h.entries[ix+1:], h.entries[ix:]); h.entries[ix] = n
    { h with entries := entries.take ix ++ n :: (entries.drop ix).take (entries.length - ix - 1) }

/-- `Table.closest`. -/
def Table.closest (tab : Table Node) (target : ID) (nresults : Nat) : NodesByDistance Node :=
  tab.buckets.foldl (fun close b => b.entries.foldl (fun close n => close.push nodeID n nresults) close)
    ⟨[], target⟩

/-- The loop of `lookup` that asks, in order, the closest nodes not asked yet, while fewer than `alpha` are pending. -/
def askLoop : List Node → List ID → Nat → List ID × Nat
  | [], asked, pendingQueries => (asked, pendingQueries)
  | n :: ns, asked, pendingQueries =>
    if pendingQueries < alpha then
      if nodeID n ∉ asked then askLoop ns (nodeID n :: asked) (pendingQueries + 1)
      else askLoop ns asked pendingQueries
    else (asked, pendingQueries)

/-- One reply taken by `lookup`: each node of it not seen in a reply before is pushed. -/
def takeReply (reply : List (Option Node)) (seen : List ID) (result : NodesByDistance Node) :
    List ID × NodesByDistance Node :=
  reply.foldl (fun (seen, result) n =>
    match n with
    | some n => if nodeID n ∉ seen then (nodeID n :: seen, result.push nodeID n bucketSize) else (seen, result)
    | none => (seen, result)) (seen, result)

/-- The main loop of `lookup`, on the replies in the order they arrive. -/
def lookupLoop : Nat → List ID → List ID → Nat → NodesByDistance Node → List (List (Option Node)) →
    Option (List Node)
  | 0, _, _, _, _, _ => none
  | fuel + 1, asked, seen, pendingQueries, result, replies =>
    let (asked, pendingQueries) := askLoop nodeID result.entries asked pendingQueries
    if pendingQueries = 0 then some result.entries
    else
      match replies with
      | [] => none
      | reply :: replies =>
        let (seen, result) := takeReply nodeID reply seen result
        lookupLoop fuel asked seen (pendingQueries - 1) result replies

/-- `Table.lookup`: the local node counts as asked from the start. -/
def Table.lookup (tab refreshed : Table Node) (target : ID) (refreshIfEmpty : Bool) (fuel : Nat)
    (replies : List (List (Option Node))) : Option (List Node) :=
  let result := tab.closest nodeID target bucketSize
  let result := if result.entries.length = 0 ∧ refreshIfEmpty then refreshed.closest nodeID target bucketSize
    else result
  lookupLoop nodeID fuel [nodeID tab.self] [] 0 result replies

end Etherzero.Discover
