import Mathlib
import Etherzero.State.Power

/-!
# The state transition of a message (state_transition.go, evm.go, gaspool.go)

`TransitionDb` checks the nonce, buys the message's gas with the sender's power (`buyGas`), pays the intrinsic gas,
runs `evm.Call` or `evm.Create`, refunds part of the gas used (`refundGas`), returns the gas left to the sender's power
and to the block's gas pool. `evm.Call` and `evm.Create` are modelled as in evm.go up to the interpreter's run of the
contract's code (`run`), which is a parameter: what it does to the accounts is given as the states it passes through
(`RunResult.trace`), and its contract is `EvmSpec`. The steps a run may take are the account changes the interpreter
can make (value transfers and their balance changes, nonces, new contracts, self-destructs) and reverts to a state it
passed before, which is what the journal gives back at a snapshot (`Lemmas/Power.lean`).
-/

namespace Etherzero.Core

open Etherzero.Power

/-- The largest `uint64`. -/
def MaxUint64 : Nat := 2 ^ 64 - 1

/-! ## Gas parameters (protocol_params.go) -/

def TxGas : Nat := 21000
def TxGasContractCreation : Nat := 53000
def TxDataZeroGas : Nat := 4
def TxDataNonZeroGas : Nat := 68
def CreateDataGas : Nat := 200
def MaxCodeSize : Nat := 24576

/-- The errors of a transition. -/
inductive TxErr where
  /-- "nonce too high" -/
  | nonceTooHigh
  /-- "nonce too low" -/
  | nonceTooLow
  /-- "insufficient power to pay for gas" -/
  | insufficientBalanceForGas
  /-- "gas limit reached" -/
  | gasLimitReached
  /-- "out of gas" -/
  | outOfGas
  /-- "insufficient balance for transfer" -/
  | insufficientBalance
  /-- The panic "gas pool pushed above uint64". -/
  | gasPoolOverflow
  deriving DecidableEq, Repr

/-- The errors of `evm.Call` and `evm.Create`. -/
inductive VmErr where
  /-- "insufficient balance for transfer" -/
  | insufficientBalance
  /-- "contract address collision" -/
  | contractAddressCollision
  /-- "contract creation code storage out of gas" -/
  | codeStoreOutOfGas
  /-- "evm: max code size exceeded" -/
  | maxCodeSizeExceeded
  /-- "evm: execution reverted" -/
  | executionReverted
  /-- Any other error of the interpreter's run: out of gas, a bad instruction, the depth limit. -/
  | other
  deriving DecidableEq, Repr

/-- `Message`. -/
structure Message where
  /-- `From()`. -/
  sender : Address
  /-- `To()`: none for a contract creation. -/
  recipient : Option Address
  gasPrice : Nat
  gas : Nat
  value : Nat
  nonce : Nat
  checkNonce : Bool
  data : List UInt8

/-- The chain rules that the transition reads. -/
structure ChainRules where
  isHomestead : Bool
  isEIP158 : Bool

/-- What a run returns: its return data, the gas left, its error, the state it ends in and the states it passed through
before, the latest first. -/
structure RunResult where
  ret : List UInt8
  leftOverGas : Nat
  err : Option VmErr
  state : StateDB
  trace : List StateDB

/-- The interpreter's run of the code of `callee`, called by `caller` with `input`, `gas` and `value` (`run` in
evm.go). -/
abbrev Interpreter := (caller callee : Address) → (input : List UInt8) → (gas value : Nat) → StateDB → RunResult

/-- A change the interpreter makes to the accounts: either half of a value transfer (the debit after `CanTransfer`), a
nonce raised (a `CREATE`'s caller, or a new contract's nonce set to 1), a new contract over an address whose nonce is
zero (the collision check), or a self-destruct's clearing of the balance. -/
inductive EvmStep (curve : PowerCurve) (blockNumber : Nat) : StateDB → StateDB → Prop where
  | subBalance (s : StateDB) (addr : Address) (amount : Nat) (h : amount ≤ s.getBalance addr) :
      EvmStep curve blockNumber s (s.subBalance curve addr amount blockNumber)
  | addBalance (s : StateDB) (addr : Address) (amount : Nat) :
      EvmStep curve blockNumber s (s.addBalance curve addr amount blockNumber)
  | setNonce (s : StateDB) (addr : Address) : EvmStep curve blockNumber s (s.setNonce addr (s.getNonce addr + 1))
  | createAccount (s : StateDB) (addr : Address) (h : s.getNonce addr = 0) :
      EvmStep curve blockNumber s (s.createAccount addr)
  | suicide (s : StateDB) (addr : Address) : EvmStep curve blockNumber s (s.suicide addr)

/-- `EvmRun s t seen`: a run from `s` reaches `t`, with `seen` the states before `t`, the latest first; each state is a
step from the one before it, or one the run was in before, which a revert to its snapshot gives back. -/
inductive EvmRun (curve : PowerCurve) (blockNumber : Nat) (s : StateDB) : StateDB → List StateDB → Prop where
  | start : EvmRun curve blockNumber s s []
  | step {t u : StateDB} {seen : List StateDB} (h : EvmRun curve blockNumber s t seen)
      (hstep : EvmStep curve blockNumber t u) : EvmRun curve blockNumber s u (t :: seen)
  | revert {t u : StateDB} {seen : List StateDB} (h : EvmRun curve blockNumber s t seen) (hu : u ∈ t :: seen) :
      EvmRun curve blockNumber s u (t :: seen)

/-- What the model asks of the interpreter: it leaves at most the gas it was given, and what it does to the accounts is
a run from the state it starts in. -/
structure EvmSpec (curve : PowerCurve) (blockNumber : Nat) (run : Interpreter) : Prop where
  leftOverGas_le : ∀ caller callee input gas value s, (run caller callee input gas value s).leftOverGas ≤ gas
  evmRun : ∀ caller callee input gas value s,
    EvmRun curve blockNumber s (run caller callee input gas value s).state (run caller callee input gas value s).trace

/-- `IntrinsicGas`, with its checks that the sum stays within `uint64`. -/
def intrinsicGas (data : List UInt8) (contractCreation homestead : Bool) : Except TxErr Nat :=
  let gas := if contractCreation ∧ homestead then TxGasContractCreation else TxGas
  if data.length > 0 then
    let nz := (data.filter (· ≠ 0)).length
    if (MaxUint64 - gas) / TxDataNonZeroGas < nz then .error .outOfGas
    else
      let gas := gas + nz * TxDataNonZeroGas
      let z := data.length - nz
      if (MaxUint64 - gas) / TxDataZeroGas < z then .error .outOfGas
      else .ok (gas + z * TxDataZeroGas)
  else .ok gas

section Evm

variable (curve : PowerCurve) (rules : ChainRules) (blockNumber : Nat) (run : Interpreter)

/-- `evm.Call` at the top: `CanTransfer`, the snapshot, `Transfer`, the run, and the revert when it fails, which also
uses all the gas unless the run reverted. Calling an account that does not exist creates it, which changes no field the
model holds; the shortcut for such a call with no value is left out. -/
def evmCall (caller addr : Address) (input : List UInt8) (gas value : Nat) (s : StateDB) : RunResult :=
  if s.getBalance caller < value then ⟨[], gas, some .insufficientBalance, s, []⟩
  else
    let snapshot := s.journal.length
    let s₁ := s.subBalance curve caller value blockNumber
    let s₂ := s₁.addBalance curve addr value blockNumber
    let r := run caller addr input gas value s₂
    match r.err with
    | none => ⟨r.ret, r.leftOverGas, none, r.state, r.trace ++ [s₁, s]⟩
    | some e =>
      ⟨r.ret, if e = .executionReverted then r.leftOverGas else 0, some e, r.state.revertToSnapshot snapshot,
        r.state :: r.trace ++ [s₁, s]⟩

/-- The error and the gas left after a creation's run stores its code: a run that finished within the size limit pays
`CreateDataGas` a byte, or fails with `ErrCodeStoreOutOfGas` when the gas left does not cover it. -/
def storeCode (err : Option VmErr) (maxCodeSizeExceeded : Bool) (ret : List UInt8) (leftOverGas : Nat) :
    Option VmErr × Nat :=
  if err = none ∧ !maxCodeSizeExceeded then
    if ret.length * CreateDataGas ≤ leftOverGas then (none, leftOverGas - ret.length * CreateDataGas)
    else (some .codeStoreOutOfGas, leftOverGas)
  else (err, leftOverGas)

/-- `evm.create` of the contract at `address`: `CanTransfer`, the caller's nonce, the collision check (on the nonce:
code is not modelled), the snapshot, `CreateAccount`, the new contract's nonce under EIP158, `Transfer`, the run, the
code's storage gas and size limit, and the revert when it fails. -/
def evmCreate (caller : Address) (code : List UInt8) (gas value : Nat) (address : Address) (s : StateDB) :
    RunResult :=
  if s.getBalance caller < value then ⟨[], gas, some .insufficientBalance, s, []⟩
  else
    let s₁ := s.setNonce caller (s.getNonce caller + 1)
    if s₁.getNonce address ≠ 0 then ⟨[], 0, some .contractAddressCollision, s₁, [s]⟩
    else
      let snapshot := s₁.journal.length
      let s₂ := s₁.createAccount address
      let s₃ := if rules.isEIP158 then s₂.setNonce address 1 else s₂
      let s₄ := s₃.subBalance curve caller value blockNumber
      let s₅ := s₄.addBalance curve address value blockNumber
      let r := run caller address code gas value s₅
      let maxCodeSizeExceeded := rules.isEIP158 && decide (r.ret.length > MaxCodeSize)
      let stored := storeCode r.err maxCodeSizeExceeded r.ret r.leftOverGas
      let trace := r.trace ++ [s₄, s₃, s₂, s₁, s]
      let err := if maxCodeSizeExceeded ∧ stored.1 = none then some .maxCodeSizeExceeded else stored.1
      if maxCodeSizeExceeded ∨ (stored.1 ≠ none ∧ (rules.isHomestead ∨ stored.1 ≠ some .codeStoreOutOfGas)) then
        ⟨r.ret, if stored.1 ≠ some .executionReverted then 0 else stored.2, err, r.state.revertToSnapshot snapshot,
          r.state :: trace⟩
      else ⟨r.ret, stored.2, err, r.state, trace⟩

end Evm

/-- What `TransitionDb` returns, with the result of the call it made. -/
structure TransitionResult where
  /-- What `evm.Call` or `evm.Create` returned. -/
  call : RunResult
  usedGas : Nat
  failed : Bool
  /-- The block's gas pool afterwards. -/
  gp : Nat
  state : StateDB

section Transition

variable (curve : PowerCurve) (rules : ChainRules) (blockNumber : Nat) (run : Interpreter)
  (createAddress : Address → Nat → Address)

/-- `buyGas`: the sender's power must cover the gas at its price, and the pool the gas; the power is paid, the pool
returned. -/
def buyGas (msg : Message) (gp : Nat) (s : StateDB) : Except TxErr (Nat × StateDB) :=
  let mgval : Int := msg.gas * msg.gasPrice
  if s.getPower curve msg.sender blockNumber < mgval then .error .insufficientBalanceForGas
  else if gp < msg.gas then .error .gasLimitReached
  else .ok (gp - msg.gas, s.subPower curve msg.sender mgval blockNumber)

/-- `preCheck`: the nonce, when the message asks for it to be checked, then `buyGas`. -/
def preCheck (msg : Message) (gp : Nat) (s : StateDB) : Except TxErr (Nat × StateDB) :=
  if msg.checkNonce then
    let nonce := s.getNonce msg.sender
    if nonce < msg.nonce then .error .nonceTooHigh
    else if nonce > msg.nonce then .error .nonceTooLow
    else buyGas curve blockNumber msg gp s
  else buyGas curve blockNumber msg gp s

/-- `refundGas`: the refund counter's gas, capped at half the gas used, is given back; the gas left goes back to the
sender's power at the message's price and to the pool. Returns the gas left, the pool and the state. -/
def refundGas (msg : Message) (refundCounter initialGas gas gp : Nat) (s : StateDB) :
    Except TxErr (Nat × Nat × StateDB) :=
  let refund := min ((initialGas - gas) / 2) refundCounter
  let gas := gas + refund
  let s := s.addPower msg.sender (gas * msg.gasPrice)
  if gp > MaxUint64 - gas then .error .gasPoolOverflow else .ok (gas, gp + gas, s)

/-- The call or creation of `TransitionDb`: `evm.Create` at the address of the sender and its nonce, or `evm.Call`
after the sender's nonce is raised for the next transaction. -/
def messageCall (msg : Message) (gas : Nat) (s : StateDB) : RunResult :=
  match msg.recipient with
  | none =>
    evmCreate curve rules blockNumber run msg.sender msg.data gas msg.value
      (createAddress msg.sender (s.getNonce msg.sender)) s
  | some recipient =>
    let s := s.setNonce msg.sender (s.getNonce msg.sender + 1)
    evmCall curve blockNumber run msg.sender recipient msg.data gas msg.value s

/-- `TransitionDb`, given the refund counter the run leaves (`GetRefund`, of the storage part of `StateDB`). -/
def transitionDb (refundCounter : Nat) (msg : Message) (gp : Nat) (s : StateDB) : Except TxErr TransitionResult :=
  match preCheck curve blockNumber msg gp s with
  | .error e => .error e
  | .ok (gp, s) =>
    -- `st.gas` and `st.initialGas` are now `msg.gas`
    match intrinsicGas msg.data msg.recipient.isNone rules.isHomestead with
    | .error e => .error e
    | .ok igas =>
      if msg.gas < igas then .error .outOfGas
      else
        let r := messageCall curve rules blockNumber run createAddress msg (msg.gas - igas) s
        if r.err = some .insufficientBalance then .error .insufficientBalance
        else
          match refundGas msg refundCounter msg.gas r.leftOverGas gp r.state with
          | .error e => .error e
          | .ok (gas, gp, s) => .ok ⟨r, msg.gas - gas, r.err.isSome, gp, s⟩

end Transition

end Etherzero.Core
