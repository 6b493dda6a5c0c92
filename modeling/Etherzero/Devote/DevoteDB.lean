import Mathlib
import Etherzero.Lib.BigEndian
import Etherzero.Rlp.Types
import Etherzero.Rlp.Encode
import Etherzero.Rlp.Decode

/-!
# Devote: the database of witness lists and block counts (devotedb.go)

`DevoteDB` holds two tries. The cycle trie maps the 8-byte big-endian number of a cycle to the RLP encoding of the
cycle's witness list; the stats trie maps the number of a cycle followed by a witness's id to the 8-byte big-endian
count of the blocks the witness sealed in that cycle. A trie is modelled by the map from keys to values that `TryGet`
reads and `TryUpdate` writes; committing it to the node database and hashing it are left out, as is the cache, whose
stats map nothing writes (`DevoteCache.Rolling` has no caller), so that `GetStatsNumber` always reads the trie.

A node id is a Go `string`, kept as its bytes: that is how the keys hold it and how Go compares strings.
-/

namespace Etherzero.Devote

open Etherzero.Rlp

/-- `params.Epoch`: the length of a cycle, in seconds. -/
def epoch : UInt64 := 600

/-- A trie as the map `TryGet` reads; keys without a value read `none`. -/
def TrieMap := List UInt8 → Option (List UInt8)

/-- `TryUpdate`: an empty value deletes the key. -/
def TrieMap.tryUpdate (m : TrieMap) (key value : List UInt8) : TrieMap :=
  fun k => if k = key then (if value = [] then none else some value) else m k

/-- `binary.BigEndian.PutUint64`. -/
def putUint64 (v : UInt64) : List UInt8 := beFixed 8 v.toNat

/-- `binary.BigEndian.Uint64`: the first eight bytes, big endian (Go panics on fewer; the tries only hold eight). -/
def bigEndianUint64 (b : List UInt8) : UInt64 := UInt64.ofNat (beValue (b.take 8))

/-- The errors of devotedb.go and snapshot.go, by the message each one formats. -/
inductive DevoteErr where
  /-- "failed to decode witnesses: %s" -/
  | decodeWitnesses (e : Rlp.Err)
  /-- "failed to encode witnesses to rlp bytes: %s" -/
  | encodeWitnesses (msg : String)
  /-- "failed to get witness: %s" -/
  | getWitness (e : DevoteErr)
  /-- "no witness could be uncast" -/
  | noWitness
  /-- " too few masternodes ,cycle:%d, current :%d, safesize:%d" -/
  | tooFewMasternodes (cycle : UInt64) (current : Nat) (safesize : Int)
  /-- The runtime panic of slicing a list at a negative bound. -/
  | sliceBounds
  deriving DecidableEq, Repr

/-- The part of `DevoteDB` the consensus functions read and write. -/
structure DevoteDB where
  statsTrie : TrieMap
  cycleTrie : TrieMap
  cycle : UInt64

namespace DevoteDB

/-- `GetStatsNumber`: the count under `key`, zero when there is none. -/
def getStatsNumber (d : DevoteDB) (key : List UInt8) : UInt64 :=
  match d.statsTrie key with
  | some cntBytes => bigEndianUint64 cntBytes
  | none => 0

/-- The Go type `[]string` of a witness list. -/
def witnessesTy : Ty := .slice .string

/-- `GetWitnesses`: the cycle's list, decoded from the cycle trie; an absent key decodes as the empty input. -/
def getWitnesses (d : DevoteDB) (cycle : UInt64) : Except DevoteErr (List (List UInt8)) :=
  let witnessRLP := (d.cycleTrie (putUint64 cycle)).getD []
  match decodeBytes witnessesTy witnessRLP with
  | .error e => .error (.decodeWitnesses e)
  | .ok (.list vs) => .ok (vs.filterMap fun | .bytes bs => some bs | _ => none)
  | .ok _ => .ok []

/-- `SetWitnesses`: the RLP encoding of the list under the cycle's number. -/
def setWitnesses (d : DevoteDB) (cycle : UInt64) (witnesses : List (List UInt8)) : Except DevoteErr DevoteDB :=
  match encodeToBytes witnessesTy (.list (witnesses.map .bytes)) with
  | .error msg => .error (.encodeWitnesses msg)
  | .ok witnessesRLP => .ok { d with cycleTrie := d.cycleTrie.tryUpdate (putUint64 cycle) witnessesRLP }

/-- `Rolling`: count the block sealed by `witness` at `currentBlockTime` after a parent of `parentBlockTime`. The count
continues the parent's when both are in one cycle, and starts at one in a new cycle. -/
def rolling (d : DevoteDB) (parentBlockTime currentBlockTime : UInt64) (witness : List UInt8) : DevoteDB :=
  let currentCycle := parentBlockTime / epoch
  let newCycle := currentBlockTime / epoch
  let cnt : UInt64 :=
    if currentCycle = newCycle then
      match d.statsTrie (putUint64 currentCycle ++ witness) with
      | some cntBytes => bigEndianUint64 cntBytes + 1
      | none => 1
    else 1
  { d with statsTrie := d.statsTrie.tryUpdate (putUint64 newCycle ++ witness) (putUint64 cnt) }

/-- The database `NewDevoteByProtocol` opens on an empty protocol: both tries empty. -/
def empty : DevoteDB := ⟨fun _ => none, fun _ => none, 0⟩

end DevoteDB

/-- `initGenesisDevoteProtocol` (genesis.go): the empty database, with the chain config's genesis witnesses, when it
has them, stored for the genesis cycle; an error of `SetWitnesses` is ignored. -/
def initGenesisDevoteProtocol (timestamp : UInt64) (witnesses : Option (List (List UInt8))) : DevoteDB :=
  match witnesses with
  | some ws =>
    match DevoteDB.empty.setWitnesses (timestamp / epoch) ws with
    | .ok d => d
    | .error _ => DevoteDB.empty
  | none => DevoteDB.empty

end Etherzero.Devote
