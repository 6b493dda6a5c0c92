import Mathlib
import Etherzero.Lib.Journal

/-!
# Storage, self-destruction and the refund counter of StateDB (statedb.go, state_object.go, journal.go)

The part of `StateDB` that `SSTORE`'s gas function and the call frames around it read and write. Each live account
object holds its committed storage (`originStorage`, which Go fills lazily from the storage trie; here the function it
caches), the values written in the transaction (`dirtyStorage`) and its suicided flag. An account that is not live is
loaded from the state trie, which a transaction does not change; Go caches the loaded object without a journal entry,
which no reader can tell from loading it again, so the model does not cache it. Every change appends the journal entry
that undoes it, and `RevertToSnapshot` undoes the entries after the snapshot's journal length, the last first.
Balances, nonces, code, logs and the journal's count of dirty accounts are left out.
-/

namespace Etherzero.State

/-- `common.Hash`: a storage key or value. -/
abbrev Hash := BitVec 256

/-- `common.Address`. -/
abbrev Address := BitVec 160

/-- The part of a `stateObject` that storage and self-destruction use; the map of live objects keys it by its
address. -/
structure StateObject where
  /-- `originStorage`: the committed value of each key, as the storage trie holds it. -/
  originStorage : Hash → Hash
  /-- `dirtyStorage`: the values written in the transaction. -/
  dirtyStorage : AList (fun _ : Hash => Hash)
  suicided : Bool

namespace StateObject

/-- `newObject` for an account read from the state trie: its committed storage, nothing written. -/
def load (storage : Hash → Hash) : StateObject := ⟨storage, ∅, false⟩

/-- `newObject(self, addr, Account{})`: an account with an empty storage. -/
def empty : StateObject := ⟨fun _ => 0, ∅, false⟩

/-- `GetCommittedState`. -/
def getCommittedState (o : StateObject) (key : Hash) : Hash := o.originStorage key

/-- `GetState`: the value written in the transaction, or else the committed one. -/
def getState (o : StateObject) (key : Hash) : Hash := (o.dirtyStorage.lookup key).getD (o.originStorage key)

/-- `setState`. -/
def setState (o : StateObject) (key value : Hash) : StateObject :=
  { o with dirtyStorage := o.dirtyStorage.insert key value }

end StateObject

/-- The journal entries of the changes modelled here. -/
inductive JournalEntry where
  | createObjectChange (account : Address)
  | resetObjectChange (account : Address) (prev : StateObject)
  /-- The balance `suicideChange` also restores is left out. -/
  | suicideChange (account : Address) (prev : Bool)
  | storageChange (account : Address) (key prevalue : Hash)
  | refundChange (prev : Nat)

/-- A snapshot: its id and the journal length it was taken at. -/
structure Revision where
  id : Nat
  journalIndex : Nat
  deriving DecidableEq, Repr

/-- The errors of this part of `StateDB`, all panics in Go. -/
inductive StateErr where
  /-- "Refund counter below zero" -/
  | refundBelowZero
  /-- "revision id %v cannot be reverted" -/
  | revisionNotFound (revid : Nat)
  deriving DecidableEq, Repr

/-- The storage part of `StateDB`. -/
structure StateDB where
  /-- The state trie: the committed storage of each existing account. -/
  trie : Address → Option (Hash → Hash)
  stateObjects : AList (fun _ : Address => StateObject)
  refund : Nat
  journal : List JournalEntry
  validRevisions : List Revision
  nextRevisionId : Nat

namespace StateDB

/-- `getStateObject`: the live object, or else the account loaded from the trie; none for an account that does not
exist. -/
def getStateObject (s : StateDB) (addr : Address) : Option StateObject :=
  match s.stateObjects.lookup addr with
  | some obj => some obj
  | none => (s.trie addr).map StateObject.load

/-- `setStateObject`. -/
def setStateObject (s : StateDB) (addr : Address) (obj : StateObject) : StateDB :=
  { s with stateObjects := s.stateObjects.insert addr obj }

/-- `journal.append`. -/
def append (s : StateDB) (e : JournalEntry) : StateDB := { s with journal := s.journal ++ [e] }

/-- `GetState`: zero for an account that does not exist. -/
def getState (s : StateDB) (addr : Address) (key : Hash) : Hash :=
  match s.getStateObject addr with
  | some obj => obj.getState key
  | none => 0

/-- `GetCommittedState`. -/
def getCommittedState (s : StateDB) (addr : Address) (key : Hash) : Hash :=
  match s.getStateObject addr with
  | some obj => obj.getCommittedState key
  | none => 0

/-- `HasSuicided`. -/
def hasSuicided (s : StateDB) (addr : Address) : Bool :=
  match s.getStateObject addr with
  | some obj => obj.suicided
  | none => false

/-- `createObject`: a new empty object over the account, the journal entry telling whether there was one. -/
def createObject (s : StateDB) (addr : Address) : StateObject × StateDB :=
  let newobj := StateObject.empty
  match s.getStateObject addr with
  | none => (newobj, (s.append (.createObjectChange addr)).setStateObject addr newobj)
  | some prev => (newobj, (s.append (.resetObjectChange addr prev)).setStateObject addr newobj)

/-- `CreateAccount`; carrying the balance over is left out. -/
def createAccount (s : StateDB) (addr : Address) : StateDB := (s.createObject addr).2

/-- `GetOrNewStateObject`. -/
def getOrNewStateObject (s : StateDB) (addr : Address) : StateObject × StateDB :=
  match s.getStateObject addr with
  | some obj => (obj, s)
  | none => s.createObject addr

/-- `SetState`: a value equal to the current one changes nothing; any other is written and journalled. -/
def setState (s : StateDB) (addr : Address) (key value : Hash) : StateDB :=
  let r := s.getOrNewStateObject addr
  let prev := r.1.getState key
  if prev = value then r.2
  else (r.2.append (.storageChange addr key prev)).setStateObject addr (r.1.setState key value)

/-- `Suicide`: mark a live account; false for an account that does not exist. -/
def suicide (s : StateDB) (addr : Address) : Bool × StateDB :=
  match s.getStateObject addr with
  | none => (false, s)
  | some obj =>
    (true, (s.append (.suicideChange addr obj.suicided)).setStateObject addr { obj with suicided := true })

/-- `AddRefund`. -/
def addRefund (s : StateDB) (gas : Nat) : StateDB := { s.append (.refundChange s.refund) with refund := s.refund + gas }

/-- `SubRefund`: panics when the counter would go below zero. -/
def subRefund (s : StateDB) (gas : Nat) : Except StateErr StateDB :=
  let s := s.append (.refundChange s.refund)
  if gas > s.refund then .error .refundBelowZero else .ok { s with refund := s.refund - gas }

/-- `Snapshot`: a new revision at the current journal length. -/
def snapshot (s : StateDB) : Nat × StateDB :=
  let id := s.nextRevisionId
  (id, { s with nextRevisionId := id + 1, validRevisions := s.validRevisions ++ [⟨id, s.journal.length⟩] })

end StateDB

/-- `revert` of each journal entry. An entry on an account's object finds the object by its address; Go dereferences
the nil object of an account that does not exist, which no entry of a journal meets, and the model leaves the state
as it is there. -/
def JournalEntry.revert : JournalEntry → StateDB → StateDB
  | .createObjectChange account, s => { s with stateObjects := s.stateObjects.erase account }
  | .resetObjectChange account prev, s => s.setStateObject account prev
  | .suicideChange account prev, s =>
    match s.getStateObject account with
    | some obj => s.setStateObject account { obj with suicided := prev }
    | none => s
  | .storageChange account key prevalue, s =>
    match s.getStateObject account with
    | some obj => s.setStateObject account (obj.setState key prevalue)
    | none => s
  | .refundChange prev, s => { s with refund := prev }

namespace StateDB

/-- `journal.revert`: undo the entries from the end down to `snapshot`, and drop them. -/
def revertJournal (s : StateDB) (snapshot : Nat) : StateDB :=
  { undoEntries JournalEntry.revert (s.journal.drop snapshot) s with journal := s.journal.take snapshot }

/-- `RevertToSnapshot`: find the revision by binary search (`sort.Search` for the first id not below `revid`), undo
the journal to its length and drop it and the revisions after it. -/
def revertToSnapshot (s : StateDB) (revid : Nat) : Except StateErr StateDB :=
  let idx := s.validRevisions.findIdx fun r => decide (r.id ≥ revid)
  match s.validRevisions[idx]? with
  | some r =>
    if r.id ≠ revid then .error (.revisionNotFound revid)
    else .ok { s.revertJournal r.journalIndex with validRevisions := s.validRevisions.take idx }
  | none => .error (.revisionNotFound revid)

end StateDB

end Etherzero.State
