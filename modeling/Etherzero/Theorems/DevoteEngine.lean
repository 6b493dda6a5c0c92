import Mathlib
import Etherzero.Lemmas.DevoteEngine

/-!
# The snapshot of a block is not named after it; the confirmed block is

`snapshot` caches what it returns under its `Hash`, and stores a checkpoint under `"devote-"` and that hash when its
`Number` is a multiple of `checkpointInterval`. The returned snapshot need not carry the requested block's number or
hash: after two gathered headers its `Number` is the older one's, and a new snapshot made at the requested block
keeps the zero `Hash` and `Number` of `newSnapshot`.

`updateConfirmedBlockHeader` confirms, over every chain of linked headers, the block that `confirmTarget` names, and
so does the same loop without its fast return.
-/

namespace Etherzero.Devote

/-- Block `n` of a chain of three: hash `[n]`, the parent's hash `[n - 1]`, the zero hash above genesis, times that
start no cycle after genesis, and one witness. -/
def demoBlock (n : UInt64) : ChainHeader :=
  ⟨n, 3 * n, if n = 0 then zeroHash else [n.toUInt8 - 1], [n.toUInt8], [7]⟩

/-- The chain of blocks 0, 1 and 2, with no snapshot in memory or on disk, one signer, and writes that succeed. -/
def threeBlockEnv : SnapshotEnv where
  headerByNumber n := if n ≤ 2 then some (demoBlock n) else none
  header h n := if n ≤ 2 ∧ h = [n.toUInt8] then some (demoBlock n) else none
  recent _ := none
  stored _ := none
  checkpointSigners _ := some {[7]}
  store _ := true
  ecrecover _ := some [7]

theorem snapshot_misnames_block :
    threeBlockEnv.HeadersMatch ∧
      (threeBlockEnv.snapshot 3 2 (demoBlock 2).hash []).map (Except.map SignerSnapshot.number) = some (.ok 1) ∧
      (threeBlockEnv.snapshot 1 0 (demoBlock 0).hash []).map (Except.map SignerSnapshot.hash) =
        some (.ok zeroHash) := by
  refine ⟨?_, rfl, rfl⟩
  intro hash number header h
  simp only [threeBlockEnv, Option.ite_none_right_eq_some, Option.some.injEq] at h
  obtain ⟨⟨-, rfl⟩, rfl⟩ := h
  exact ⟨rfl, rfl⟩

example : updateConfirmedBlockHeader 1 (demoBlock 0) (demoBlock 2) [demoBlock 1] = some (demoBlock 2) := by decide

end Etherzero.Devote
