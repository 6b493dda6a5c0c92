import Mathlib
import Etherzero.Devote.DevoteDB

/-!
# Devote: the signer snapshot of a block and the confirmed block (devote.go, snapshot.go)

`snapshot` walks back from a block, gathering headers, until it meets a snapshot it can start from: the one the
in-memory cache holds under the block's hash, the one stored on disk under `"devote-"` and the hash at a checkpoint
number, or a new one made at genesis or at the first block of a cycle. It applies the gathered headers to it, oldest
first. `apply` keeps the signers of the recent blocks, and sets the snapshot's `Number` to its first header's number
and its `Hash` to its last header's hash; `newSnapshot` sets neither.

The chain reader, the two snapshot stores, the signers a checkpoint's devote database gives, the database writes and
the recovery of a header's signer are parameters (`SnapshotEnv`). The search has no bound in Go: here it takes fuel,
and `none` is a search that used it all. The logs and the cache writes after a result, which no result reads, are
left out.

`updateConfirmedBlockHeader` walks back from the current head, counting the distinct witnesses of the blocks of one
cycle, and confirms the first block at which they reach `consensusSize`; it returns early once the blocks left above
the confirmed one are too few to reach it. The blocks it walks are the head's ancestors as `GetHeaderByHash` gives
them, a list that ends where a parent is missing; the confirmed header is the one `d.confirmedBlockHeader` holds
after it was loaded. `Int64` is taken as `Int`: block numbers stay below `2^63`.
-/

namespace Etherzero.Devote

/-- The fields of `types.Header` that the snapshot search and the confirmation read; `hash` is `Hash()`, and the
witness, a Go `string`, is kept as its bytes. -/
structure ChainHeader where
  number : UInt64
  time : UInt64
  parentHash : List UInt8
  hash : List UInt8
  witness : List UInt8
  deriving DecidableEq, Repr

/-- The fields of `Snapshot` that `copy`, `apply` and `snapshot` read and write: the keys of `Signers` and the map
`Recents`. -/
structure SignerSnapshot where
  hash : List UInt8
  number : UInt64
  cycle : UInt64
  signers : Finset (List UInt8)
  recents : UInt64 → Option (List UInt8)

/-- The errors `snapshot` returns. -/
inductive SnapshotErr where
  /-- `consensus.ErrUnknownAncestor` -/
  | unknownAncestor
  /-- an error of `devotedb.NewDevoteByProtocol` -/
  | protocol
  /-- an error of `snap.store` -/
  | store
  /-- an error of `ecrecover` -/
  | signature
  deriving DecidableEq, Repr

/-- `checkpointInterval`. -/
def checkpointInterval : UInt64 := 600

/-- The zero `common.Hash`. -/
def zeroHash : List UInt8 := List.replicate 32 0

/-- `newSnapshot`, with the signers the checkpoint's devote database gives: `Hash`, `Number` and `Cycle` stay zero. -/
def newSnapshot (signers : Finset (List UInt8)) : SignerSnapshot :=
  ⟨zeroHash, 0, 0, signers, fun _ => none⟩

/-- `copy`: every field but `Cycle`. -/
def SignerSnapshot.copy (s : SignerSnapshot) : SignerSnapshot := { s with cycle := 0 }

/-- One header of `apply`'s loop; `ecrecover` gives the header's signer, `none` when recovery fails. -/
def SignerSnapshot.applyHeader (ecrecover : ChainHeader → Option (List UInt8)) (snap : SignerSnapshot)
    (header : ChainHeader) : Except SnapshotErr SignerSnapshot := do
  -- a new cycle forgets the recent signers
  let recents := if header.time % epoch = 0 then fun _ => none else snap.recents
  let number := header.number
  -- the oldest signer may sign again
  let limit : UInt64 := UInt64.ofNat (snap.signers.card / 2 + 1)
  let recents := if number ≥ limit then Function.update recents (number - limit) none else recents
  let signer ← match ecrecover header with
    | some signer => pure signer
    | none => throw .signature
  let recents := if number % epoch ≠ 0 then Function.update recents number (some signer) else recents
  pure { snap with recents }

/-- `apply`: the headers oldest first; `Number` becomes the first one's number, `Hash` and `Cycle` the last one's. -/
def SignerSnapshot.apply (ecrecover : ChainHeader → Option (List UInt8)) (s : SignerSnapshot) :
    List ChainHeader → Except SnapshotErr SignerSnapshot
  | [] => pure s
  | first :: rest => do
    let snap ← (first :: rest).foldlM (SignerSnapshot.applyHeader ecrecover) s.copy
    let last := (first :: rest).getLast (List.cons_ne_nil first rest)
    pure { snap with number := first.number, hash := last.hash, cycle := last.time / epoch }

/-- What `snapshot` reads besides its arguments. -/
structure SnapshotEnv where
  /-- `chain.GetHeaderByNumber` -/
  headerByNumber : UInt64 → Option ChainHeader
  /-- `chain.GetHeader` -/
  header : List UInt8 → UInt64 → Option ChainHeader
  /-- `d.recents.Get` -/
  recent : List UInt8 → Option SignerSnapshot
  /-- `loadSnapshot` -/
  stored : List UInt8 → Option SignerSnapshot
  /-- The signers of the snapshot made at a checkpoint header: the witnesses of its cycle in the devote database its
  `Protocol` opens, with those of `d.signatures`; `none` when the database does not open. -/
  checkpointSigners : ChainHeader → Option (Finset (List UInt8))
  /-- Whether `snap.store` succeeds. -/
  store : SignerSnapshot → Bool
  /-- `ecrecover` -/
  ecrecover : ChainHeader → Option (List UInt8)

/-- The snapshot the search finds at block `number` of hash `hash`, if it finds one there. -/
def SnapshotEnv.found (env : SnapshotEnv) (number : UInt64) (hash : List UInt8) :
    Option (Except SnapshotErr SignerSnapshot) := do
  let checkpoint ← env.headerByNumber number
  match env.recent hash with
  | some s => some (.ok s)
  | none =>
    match (if number % checkpointInterval = 0 then env.stored hash else none) with
    | some s => some (.ok s)
    | none =>
      if number = 0 ∨ checkpoint.time % epoch = 0 then
        some (match env.checkpointSigners checkpoint with
          | none => .error .protocol
          | some signers =>
            if env.store (newSnapshot signers) then .ok (newSnapshot signers) else .error .store)
      else none

/-- The header the search gathers at block `number` of hash `hash`: the last of the explicit parents, which must be
that block, or else the chain's; and the parents left. -/
def SnapshotEnv.gather (env : SnapshotEnv) (number : UInt64) (hash : List UInt8) (parents : List ChainHeader) :
    Except SnapshotErr (ChainHeader × List ChainHeader) :=
  match parents.getLast? with
  | some header =>
    if header.hash ≠ hash ∨ header.number ≠ number then .error .unknownAncestor else .ok (header, parents.dropLast)
  | none =>
    match env.header hash number with
    | some header => .ok (header, [])
    | none => .error .unknownAncestor

/-- The search loop of `snapshot`: the snapshot it starts from, and the headers gathered above it, newest first. -/
def SnapshotEnv.search (env : SnapshotEnv) :
    Nat → UInt64 → List UInt8 → List ChainHeader → List ChainHeader →
      Option (Except SnapshotErr (SignerSnapshot × List ChainHeader))
  | 0, _, _, _, _ => none
  | fuel + 1, number, hash, parents, headers =>
    match env.found number hash with
    | some (.ok snap) => some (.ok (snap, headers))
    | some (.error e) => some (.error e)
    | none =>
      match env.gather number hash parents with
      | .error e => some (.error e)
      | .ok (header, parents) => env.search fuel (number - 1) header.parentHash parents (headers ++ [header])

/-- `snapshot`. -/
def SnapshotEnv.snapshot (env : SnapshotEnv) (fuel : Nat) (number : UInt64) (hash : List UInt8)
    (parents : List ChainHeader) : Option (Except SnapshotErr SignerSnapshot) :=
  (env.search fuel number hash parents []).map fun r => do
    let (snap, headers) ← r
    let snap ← snap.apply env.ecrecover headers.reverse
    -- a new checkpoint snapshot is stored
    if snap.number % checkpointInterval = 0 ∧ headers ≠ [] then
      if env.store snap then pure snap else throw .store
    else pure snap

/-- `consensusSize`: 15 witnesses on the chain of id 90, one on every other. -/
def consensusSize (chainID : Nat) : Nat := if chainID = 90 then 15 else 1

/-- The loop of `updateConfirmedBlockHeader` at block `cur`, followed by the ancestors `rest`, with the cycle and the
distinct witnesses counted so far: the confirmed header it leaves, or `none` for `ErrNilBlockHeader`. -/
def confirmLoop (size : Nat) (confirmed : ChainHeader) :
    List ChainHeader → UInt64 → Finset (List UInt8) → Option ChainHeader
  | [], _, _ => none
  | cur :: rest, cycle, witnessMap =>
    if cur.hash ≠ confirmed.hash ∧ confirmed.number < cur.number then
      let curCycle := cur.time / epoch
      let (cycle, witnessMap) := if curCycle ≠ cycle then (curCycle, ∅) else (cycle, witnessMap)
      -- fast return: too few blocks are left to reach `size` witnesses
      if (cur.number.toNat : Int) - confirmed.number.toNat < (size : Int) - witnessMap.card then some confirmed
      else
        let witnessMap := insert cur.witness witnessMap
        if witnessMap.card ≥ size then some cur
        else confirmLoop size confirmed rest cycle witnessMap
    else some confirmed

/-- `updateConfirmedBlockHeader`, from the current head and its ancestors. -/
def updateConfirmedBlockHeader (chainID : Nat) (confirmed head : ChainHeader) (ancestors : List ChainHeader) :
    Option ChainHeader :=
  confirmLoop (consensusSize chainID) confirmed (head :: ancestors) 0 ∅

/-- The same loop without the fast return, to compare with. -/
def confirmLoopNoFastReturn (size : Nat) (confirmed : ChainHeader) :
    List ChainHeader → UInt64 → Finset (List UInt8) → Option ChainHeader
  | [], _, _ => none
  | cur :: rest, cycle, witnessMap =>
    if cur.hash ≠ confirmed.hash ∧ confirmed.number < cur.number then
      let curCycle := cur.time / epoch
      let (cycle, witnessMap) := if curCycle ≠ cycle then (curCycle, ∅) else (cycle, witnessMap)
      let witnessMap := insert cur.witness witnessMap
      if witnessMap.card ≥ size then some cur
      else confirmLoopNoFastReturn size confirmed rest cycle witnessMap
    else some confirmed

end Etherzero.Devote
