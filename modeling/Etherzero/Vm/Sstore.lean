import Mathlib
import Etherzero.State.StateDB

/-!
# SSTORE's gas and the call frames around it (gas_table.go, interpreter.go, evm.go)

`gasSStore` runs before `SSTORE` executes: it reads the current and the committed value of the slot, changes the
refund counter, and returns the cost; when the frame has less gas than that, the interpreter stops with
`ErrOutOfGas` and the store does not happen. Every call and create takes a snapshot first and reverts to it when the
callee stops with an error. A frame's code is abstracted to what it does to storage and the refund counter: its
`SSTORE`s, each with the gas left when it runs, its `SELFDESTRUCT`, the calls and creates it makes, and the error
that stops it; every other instruction, and the gas it uses, is left out, and the gas left at each `SSTORE` is any
number.
-/

namespace Etherzero.State

/-! ## Gas parameters (protocol_params.go) -/

def SstoreSetGas : Nat := 20000
def SstoreResetGas : Nat := 5000
def SstoreClearGas : Nat := 5000
def SstoreRefundGas : Nat := 15000
def NetSstoreNoopGas : Nat := 200
def NetSstoreInitGas : Nat := 20000
def NetSstoreCleanGas : Nat := 5000
def NetSstoreDirtyGas : Nat := 200
def NetSstoreClearRefund : Nat := 15000
def NetSstoreResetRefund : Nat := 4800
def NetSstoreResetClearRefund : Nat := 19800
def SuicideRefundGas : Nat := 24000

/-- The refunds `gasSStore` adds after a dirty slot is reset to its committed value. -/
def resetRefund (s : StateDB) (original value : Hash) : StateDB :=
  if original = value then
    if original = 0 then s.addRefund NetSstoreResetClearRefund else s.addRefund NetSstoreResetRefund
  else s

/-- `gasSStore`: the cost of storing `value` under `key` of `addr`, and the refund counter changed as the rules of the
block say: only the current value before Constantinople, and EIP-1283's net metering from it. -/
def gasSStore (isConstantinople : Bool) (s : StateDB) (addr : Address) (key value : Hash) :
    Except StateErr (Nat × StateDB) :=
  let current := s.getState addr key
  if !isConstantinople then
    if current = 0 ∧ value ≠ 0 then .ok (SstoreSetGas, s)
    else if current ≠ 0 ∧ value = 0 then .ok (SstoreClearGas, s.addRefund SstoreRefundGas)
    else .ok (SstoreResetGas, s)
  else if current = value then .ok (NetSstoreNoopGas, s)
  else
    let original := s.getCommittedState addr key
    if original = current then
      if original = 0 then .ok (NetSstoreInitGas, s)
      else if value = 0 then .ok (NetSstoreCleanGas, s.addRefund NetSstoreClearRefund)
      else .ok (NetSstoreCleanGas, s)
    else if original ≠ 0 then
      if current = 0 then
        match s.subRefund NetSstoreClearRefund with
        | .ok s => .ok (NetSstoreDirtyGas, resetRefund s original value)
        | .error e => .error e
      else if value = 0 then .ok (NetSstoreDirtyGas, resetRefund (s.addRefund NetSstoreClearRefund) original value)
      else .ok (NetSstoreDirtyGas, resetRefund s original value)
    else .ok (NetSstoreDirtyGas, resetRefund s original value)

mutual

/-- What a frame's code does to storage and the refund counter. -/
inductive Code where
  /-- `SSTORE` of `value` under `key`, with `gas` left in the frame. -/
  | sstore (key value : Hash) (gas : Nat)
  /-- `SELFDESTRUCT` to `beneficiary`; `outOfGas` when the frame cannot pay for it. -/
  | selfdestruct (beneficiary : Address) (outOfGas : Bool)
  /-- A `CALL`-like call or a `CREATE`. -/
  | call (c : Call)
  /-- An error or a `REVERT` that stops the frame. -/
  | fail

/-- `evm.Call` of `callee`, or `evm.Create` of it (`create`), whose frame runs `body`. -/
inductive Call where
  | mk (callee : Address) (create : Bool) (body : List Code)

end

mutual

/-- The frame of `addr` running its code: false when it stops with an error. The frame goes on after a call whether
the callee finished or failed. -/
def runFrame (isConstantinople : Bool) (addr : Address) : List Code → StateDB → Except StateErr (Bool × StateDB)
  | [], s => .ok (true, s)
  | .sstore key value gas :: rest, s =>
    match gasSStore isConstantinople s addr key value with
    | .error e => .error e
    | .ok (cost, s) =>
      if gas < cost then .ok (false, s) else runFrame isConstantinople addr rest (s.setState addr key value)
  | .selfdestruct beneficiary outOfGas :: _, s =>
    let s := if s.hasSuicided addr then s else s.addRefund SuicideRefundGas
    if outOfGas then .ok (false, s) else .ok (true, ((s.getOrNewStateObject beneficiary).2.suicide addr).2)
  | .call c :: rest, s =>
    match evmCall isConstantinople c s with
    | .error e => .error e
    | .ok (_, s) => runFrame isConstantinople addr rest s
  | .fail :: _, s => .ok (false, s)

/-- `evm.Call` or `evm.Create`: the callee's frame under a snapshot, reverted when it fails; true when it finished. -/
def evmCall (isConstantinople : Bool) : Call → StateDB → Except StateErr (Bool × StateDB)
  | .mk callee create body, s =>
    let id := s.snapshot.1
    let s₁ := s.snapshot.2
    let s₂ := if create then s₁.createAccount callee else s₁
    match runFrame isConstantinople callee body s₂ with
    | .error e => .error e
    | .ok (true, s₃) => .ok (true, s₃)
    | .ok (false, s₃) =>
      match s₃.revertToSnapshot id with
      | .error e => .error e
      | .ok s₄ => .ok (false, s₄)

end

end Etherzero.State
