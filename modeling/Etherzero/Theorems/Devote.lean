import Mathlib
import Etherzero.Lemmas.DevoteStats
import Etherzero.Lemmas.DevoteElection

/-!
# Devote: the statistics of a chain, uncast and election

The stats trie of a chain counts its blocks by cycle and witness; `uncast` does not remove every idle witness of the
previous cycle; election ranks the distinct candidates the same way for every order of Go's map.
-/

namespace Etherzero.Devote

/-! ## The stats trie of a chain -/

/-- Every block's devote database, from the genesis one on, counts the blocks of the chain after genesis: under the
key of a cycle and a witness, the eight big-endian bytes of the number of blocks of that cycle the witness sealed, and
no entry for a pair with none. -/
theorem recordChain_statsTrie (genesisTime : UInt64) (genesisWitnesses : Option (List (List UInt8)))
    (timeStamp : UInt64) (blocks : List Block) (htimes : (genesisTime :: blocks.map Block.time).Pairwise (· < ·))
    (c : UInt64) (w : List UInt8) :
    (recordChain ⟨initGenesisDevoteProtocol genesisTime genesisWitnesses, timeStamp⟩ genesisTime blocks).devoteDB.statsTrie
        (putUint64 c ++ w) =
      if blockCount blocks c w = 0 then none else some (putUint64 (UInt64.ofNat (blockCount blocks c w))) := by
  have hrun := recordChain_statsCount blocks ⟨initGenesisDevoteProtocol genesisTime genesisWitnesses, timeStamp⟩
    genesisTime [] (statsCount_initGenesisDevoteProtocol genesisTime genesisWitnesses)
    (fun _ hb => absurd hb List.not_mem_nil) htimes
  rw [List.nil_append] at hrun
  rw [hrun c w, StatsAux.putUint64_ofNat]

/-- Three blocks after a genesis at time 0: two of cycle 1 by one witness, one of cycle 2 by another. -/
theorem recordChain_statsTrie_three :
    ([(0 : UInt64), 600, 700, 1300]).Pairwise (· < ·) ∧
      (recordChain ⟨initGenesisDevoteProtocol 0 none, 0⟩ 0 [⟨600, [1]⟩, ⟨700, [1]⟩, ⟨1300, [2]⟩]).devoteDB.statsTrie
          (putUint64 1 ++ [1]) =
        if blockCount [⟨600, [1]⟩, ⟨700, [1]⟩, ⟨1300, [2]⟩] 1 [1] = 0 then none
        else some (putUint64 (UInt64.ofNat (blockCount [⟨600, [1]⟩, ⟨700, [1]⟩, ⟨1300, [2]⟩] 1 [1]))) :=
  ⟨by decide, recordChain_statsTrie 0 none 0 [⟨600, [1]⟩, ⟨700, [1]⟩, ⟨1300, [2]⟩] (by decide) 1 [1]⟩

/-! ## Uncast -/

/-- `uncast` leaves an idle witness behind the kept candidates: the witness `[2]` of cycle 1 sealed no block, and
`uncast` returns the candidates `[1]`, `[2]` as they were; election for cycle 2 then elects `[2]` again. -/
theorem uncast_keeps_idle_witness :
    (uncast ⟨DevoteDB.empty.storeWitnesses 1 [[2]], 1200⟩ 1 [[1], [2]]).1 = [[1], [2]] ∧
      (election (fun _ => []) (fun _ es => es) ⟨DevoteDB.empty.storeWitnesses 1 [[2]], 1200⟩ ⟨0, []⟩ ⟨600, []⟩
        [[1], [2]] 1 21).1 = .ok [[2], [1]] := by
  decide +kernel

/-! ## Election -/

/-- Election at a cycle after the parent's, with a bound that is not negative, for every order in which Go's loop
visits the map: it fails, leaving the snapshot as it was, exactly when there are fewer than `safeSize` distinct
candidates, and otherwise stores for the current cycle, and returns, the first `maxWitnessSize` of the distinct
candidates ranked by weight and then by id, both descending. -/
theorem election_eq_ranked (keccak512 : List UInt8 → List UInt8) {order : MapOrder} (horder : order.Perm)
    (snap : Snapshot) (genesis parent : Header) (nodes : List (List UInt8)) (safeSize : Int) {maxWitnessSize : Int}
    (hmax : 0 ≤ maxWitnessSize) (hcyc : parent.time / epoch < snap.timeStamp / epoch)
    (ranked : List SortableAddress)
    (hperm : ranked.Perm ((electionCandidates snap genesis parent nodes).dedup.map (candidate keccak512 parent)))
    (hranked : ranked.Pairwise SortableAddress.Ranked) :
    election keccak512 order snap genesis parent nodes safeSize maxWitnessSize =
      electionOutcome snap (snap.timeStamp / epoch) safeSize (electionCandidates snap genesis parent nodes)
        ((ranked.take maxWitnessSize.toNat).map SortableAddress.nodeid) := by
  rw [election_eq keccak512 horder snap genesis parent nodes safeSize hmax hcyc, electedWitnesses,
    eq_sortAddresses_of_ranked hperm hranked]

/-- Three candidates, one of them twice, of equal weight: the two distinct ones ranked by id, the first kept. -/
theorem election_eq_ranked_three :
    MapOrder.Perm (fun _ es => es) ∧ (0 : Int) ≤ 1 ∧ (600 : UInt64) / epoch < 1200 / epoch ∧
      List.Perm [⟨[2], 0⟩, ⟨[1], 0⟩]
        ((electionCandidates ⟨DevoteDB.empty, 1200⟩ ⟨0, []⟩ ⟨600, []⟩ [[1], [2], [1]]).dedup.map
          (candidate (fun _ => []) ⟨600, []⟩)) ∧
      List.Pairwise SortableAddress.Ranked [⟨[2], 0⟩, ⟨[1], 0⟩] ∧
      election (fun _ => []) (fun _ es => es) ⟨DevoteDB.empty, 1200⟩ ⟨0, []⟩ ⟨600, []⟩ [[1], [2], [1]] 1 1 =
        electionOutcome ⟨DevoteDB.empty, 1200⟩ (1200 / epoch) 1
          (electionCandidates ⟨DevoteDB.empty, 1200⟩ ⟨0, []⟩ ⟨600, []⟩ [[1], [2], [1]])
          (([⟨[2], 0⟩, ⟨[1], 0⟩] : List SortableAddress).take (1 : Int).toNat |>.map SortableAddress.nodeid) :=
  ⟨fun _ _ => List.Perm.refl _, by decide, by decide, by decide, by decide,
    election_eq_ranked (fun _ => []) (fun _ _ => List.Perm.refl _) ⟨DevoteDB.empty, 1200⟩ ⟨0, []⟩ ⟨600, []⟩
      [[1], [2], [1]] 1 (by decide) (by decide) [⟨[2], 0⟩, ⟨[1], 0⟩] (by decide) (by decide)⟩

/-- Election within the parent's cycle elects nobody and stores nothing, though no candidate is there and one is the
safe size. -/
theorem election_same_cycle_nil :
    election (fun _ => []) (fun _ es => es) ⟨DevoteDB.empty, 1260⟩ ⟨0, []⟩ ⟨1200, []⟩ [] 1 21 =
      (.ok [], ⟨DevoteDB.empty, 1260⟩) :=
  election_same_cycle _ _ _ _ _ _ _ _ (by decide)

end Etherzero.Devote
