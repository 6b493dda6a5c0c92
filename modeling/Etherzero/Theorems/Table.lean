import Mathlib
import Etherzero.Lemmas.Table
import Etherzero.Theorems.Discover

/-!
# The node table's invariants and its IP counts

Every table the operations reach keeps each bucket within `bucketSize` entries and `maxReplacements` replacements,
with distinct IDs, holding only nodes of its own log distance other than the local node, so the nodes `closest`
returns have distinct IDs and never include the local node. The IP counts do not stay the counts of the nodes:
`deleteInBucket` gives back the IP of the node it is asked to delete whether or not the node was in the bucket, and
findnode's drop deletes nodes that need not be there. A count brought down that way lets more nodes of one /24 into
a bucket than `bucketIPLimit`.
-/

namespace Etherzero.Discover

open Etherzero.Netutil

variable {Node : Type} (nodeID : Node → ID) (nodeIP : Node → IP)

/-- The bucket invariant over every run from `newTable`, and what it gives `closest`. -/
theorem reachable_table_inv (self : Node) (ops : List (TableOp Node)) :
    ((newTable self).run nodeID nodeIP ops).Inv nodeID ∧
      ∀ target k, let close := ((newTable self).run nodeID nodeIP ops).toTable.closest nodeID target k
        (close.entries.map nodeID).Nodup ∧ nodeID self ∉ close.entries.map nodeID := by
  have hinv : ((newTable self).run nodeID nodeIP ops).Inv nodeID := (inv_newTable self).run ops
  refine ⟨hinv, fun target k => ?_⟩
  have hself : ((newTable self).run nodeID nodeIP ops).self = self := self_run ops
  have := hinv.closest_nodup target k
  rwa [hself] at this

/-- The ID whose last byte is `b`, the others zero. -/
def peerID (b : UInt8) : ID := idOf b

/-- A node is added; a node of the same /24 that is not in the table is deleted, as findnode's drop of a failing
node does; two more nodes of that /24 are added. All four are in the closest bucket of the local node `peerID 0`. -/
def ipLeakOps : List (TableOp (ID × IP)) :=
  [.add (peerID 1, [1, 2, 3, 4]), .delete (peerID 2, [1, 2, 3, 5]), .add (peerID 3, [1, 2, 3, 6]),
    .add (peerID 4, [1, 2, 3, 7])]

/-- The table `ipLeakOps` reaches. -/
def ipLeakTable : NodeTable (ID × IP) := (newTable (peerID 0, [5, 6, 7, 8])).run Prod.fst Prod.snd ipLeakOps

/-- The bucket of the nodes of `ipLeakOps`. -/
def ipLeakBucket : TableBucket (ID × IP) := ipLeakTable.buckets.get (ipLeakTable.bucket Prod.fst (peerID 1))

/-- After `ipLeakOps` the bucket holds three nodes of 1.2.3.0/24 while its count and the table's for that /24 are
two. -/
theorem deleteInBucket_frees_uncounted_ip :
    ((ipLeakBucket.entries ++ ipLeakBucket.replacements).filter fun n =>
        !isLAN n.2 && ipLeakBucket.ips.key n.2 == ipLeakBucket.ips.key [1, 2, 3, 4]).length = 3 ∧
      ipLeakBucket.ips.members (ipLeakBucket.ips.key [1, 2, 3, 4]) = 2 ∧
      ipLeakTable.ips.members (ipLeakBucket.ips.key [1, 2, 3, 4]) = 2 := by
  decide +kernel

end Etherzero.Discover
