import Mathlib
import Etherzero.Lib.Journal

/-!
# Balances, nonces and power of accounts (power.go, statedb.go, state_object.go, journal.go)

Etherzero pays for gas with power, not with the balance: an account's power grows with the blocks since it was last
brought up to date, at a speed and to a cap that its balance sets, and only an account holding at least 1e16 has any.
`CalculatePower` gives the power at a block; `UpdatePower` stores it with the block, and every change of the balance
first brings the power up to date. The speed and the cap are float computations (`math.Exp` of the balance in etz),
which `PowerCurve` takes as given: what is proved holds for every curve. An account that does not exist reads as the
zero account. Each change journals its previous value; a revert to a journal length undoes the changes after it, the
last first. Storage, code and the revision ids of snapshots are left out (`State/StateDB.lean` models storage).
-/

namespace Etherzero.Power

/-- `common.Address`. -/
abbrev Address := BitVec 160

/-- The fields of an account that power uses. -/
structure Account where
  nonce : Nat
  balance : Nat
  power : Int
  blockNumber : Nat
  deriving DecidableEq, Repr

/-- The account of an address that does not exist. -/
def Account.empty : Account := ⟨0, 0, 0, 0⟩

/-- The float parts of `CalculatePower`, each already truncated by `int64` and scaled by 18e9: the cap `MaxPower` of a
balance, and the power a balance gains over a gap of blocks. -/
structure PowerCurve where
  maxPower : Nat → Int
  growth : Nat → Nat → Int

/-- The least balance that has power: 1e16. -/
def minPowerBalance : Nat := 10 ^ 16

/-- `CalculatePower`: none below 1e16; the stored power at its own block or before; otherwise the stored power plus
the growth since, capped (and set to the cap when the sum went below the stored power). -/
def calculatePower (curve : PowerCurve) (prevBlock newBlock : Nat) (prevPower : Int) (balance : Nat) : Int :=
  if balance < minPowerBalance then 0
  else if prevBlock ≥ newBlock then prevPower
  else
    let max2 := curve.maxPower balance
    let power2 := prevPower + curve.growth balance (newBlock - prevBlock)
    if power2 > max2 ∨ prevPower > power2 then max2 else power2

/-- The journal entries of the account changes. -/
inductive JournalEntry where
  /-- `createObjectChange` and `resetObjectChange`: the account before `createObject`. -/
  | resetObjectChange (account : Address) (prev : Account)
  /-- The suicided flag that `suicideChange` also restores is left out. -/
  | suicideChange (account : Address) (prevbalance : Nat)
  | nonceChange (account : Address) (prev : Nat)
  | balanceChange (account : Address) (prev : Nat)
  | powerChange (account : Address) (prev : Int)
  | blockChange (account : Address) (prevpower : Int) (prevblock : Nat)

/-- The account part of `StateDB`. -/
structure StateDB where
  accounts : Address → Account
  journal : List JournalEntry

namespace StateDB

/-- Replace an account. -/
def setAccount (s : StateDB) (addr : Address) (acct : Account) : StateDB :=
  { s with accounts := Function.update s.accounts addr acct }

/-- `journal.append`. -/
def append (s : StateDB) (e : JournalEntry) : StateDB := { s with journal := s.journal ++ [e] }

/-- `GetBalance`. -/
def getBalance (s : StateDB) (addr : Address) : Nat := (s.accounts addr).balance

/-- `GetNonce`. -/
def getNonce (s : StateDB) (addr : Address) : Nat := (s.accounts addr).nonce

/-- `GetPower`: the power at `blockNumber`, which is not stored. -/
def getPower (curve : PowerCurve) (s : StateDB) (addr : Address) (blockNumber : Nat) : Int :=
  let o := s.accounts addr
  calculatePower curve o.blockNumber blockNumber o.power o.balance

/-- `UpdatePower`: store the power at `blockNumber` with the block. -/
def updatePower (curve : PowerCurve) (s : StateDB) (addr : Address) (blockNumber : Nat) : StateDB :=
  let o := s.accounts addr
  let power := calculatePower curve o.blockNumber blockNumber o.power o.balance
  (s.append (.blockChange addr o.power o.blockNumber)).setAccount addr
    { o with power := power, blockNumber := blockNumber }

/-- `SetBalance`: bring the power up to date, then store the balance. -/
def setBalance (curve : PowerCurve) (s : StateDB) (addr : Address) (amount blockNumber : Nat) : StateDB :=
  let s := s.updatePower curve addr blockNumber
  let o := s.accounts addr
  (s.append (.balanceChange addr o.balance)).setAccount addr { o with balance := amount }

/-- `AddBalance`: nothing for zero; otherwise the power is brought up to date, and again by `SetBalance`. -/
def addBalance (curve : PowerCurve) (s : StateDB) (addr : Address) (amount blockNumber : Nat) : StateDB :=
  if amount = 0 then s
  else
    let s := s.updatePower curve addr blockNumber
    s.setBalance curve addr ((s.accounts addr).balance + amount) blockNumber

/-- `SubBalance`; it is called where `CanTransfer` has checked the balance. -/
def subBalance (curve : PowerCurve) (s : StateDB) (addr : Address) (amount blockNumber : Nat) : StateDB :=
  if amount = 0 then s else s.setBalance curve addr ((s.accounts addr).balance - amount) blockNumber

/-- `SetPower`. -/
def setPower (s : StateDB) (addr : Address) (amount : Int) : StateDB :=
  let o := s.accounts addr
  (s.append (.powerChange addr o.power)).setAccount addr { o with power := amount }

/-- `AddPower`: the stored power, not brought up to date. -/
def addPower (s : StateDB) (addr : Address) (amount : Int) : StateDB :=
  if amount = 0 then s else s.setPower addr ((s.accounts addr).power + amount)

/-- `SubPower`: nothing for zero; otherwise the power is brought up to date first. -/
def subPower (curve : PowerCurve) (s : StateDB) (addr : Address) (amount : Int) (blockNumber : Nat) : StateDB :=
  if amount = 0 then s
  else
    let s := s.updatePower curve addr blockNumber
    s.setPower addr ((s.accounts addr).power - amount)

/-- `SetNonce`. -/
def setNonce (s : StateDB) (addr : Address) (nonce : Nat) : StateDB :=
  let o := s.accounts addr
  (s.append (.nonceChange addr o.nonce)).setAccount addr { o with nonce := nonce }

/-- `CreateAccount`: a new account over the address, with the balance of the one it replaces. -/
def createAccount (s : StateDB) (addr : Address) : StateDB :=
  let prev := s.accounts addr
  (s.append (.resetObjectChange addr prev)).setAccount addr { Account.empty with balance := prev.balance }

/-- `Suicide`: the balance is cleared, without bringing the power up to date. -/
def suicide (s : StateDB) (addr : Address) : StateDB :=
  let o := s.accounts addr
  (s.append (.suicideChange addr o.balance)).setAccount addr { o with balance := 0 }

/-- `Transfer` (core/evm.go). -/
def transfer (curve : PowerCurve) (s : StateDB) (sender recipient : Address) (amount blockNumber : Nat) : StateDB :=
  (s.subBalance curve sender amount blockNumber).addBalance curve recipient amount blockNumber

end StateDB

/-- `revert` of each entry: the field back to its previous value. -/
def JournalEntry.revert : JournalEntry → StateDB → StateDB
  | .resetObjectChange account prev, s => s.setAccount account prev
  | .suicideChange account prevbalance, s => s.setAccount account { s.accounts account with balance := prevbalance }
  | .nonceChange account prev, s => s.setAccount account { s.accounts account with nonce := prev }
  | .balanceChange account prev, s => s.setAccount account { s.accounts account with balance := prev }
  | .powerChange account prev, s => s.setAccount account { s.accounts account with power := prev }
  | .blockChange account prevpower prevblock, s =>
    s.setAccount account { s.accounts account with power := prevpower, blockNumber := prevblock }

namespace StateDB

/-- `RevertToSnapshot` to the journal length `snapshot`: undo the entries after it, the last first, and drop them. -/
def revertToSnapshot (s : StateDB) (snapshot : Nat) : StateDB :=
  { undoEntries JournalEntry.revert (s.journal.drop snapshot) s with journal := s.journal.take snapshot }

end StateDB

end Etherzero.Power
