import Mathlib
import Etherzero.Contracts.Masternode

/-!
# The masternode manager (eth/masternode_backend.go)

`masternodeLoop` keeps in `IsMasternode` whether this node is a masternode. It is set at the start from `contract.Has`
of `X8()`, the first eight bytes of the node's public key, and then by the contract's `join` and `quit` events. On
every tick of its ping timer the loop pings the contract, provided four things hold: the node is a masternode, the
chain is not syncing, and the node account has both the balance and the power for the ping. `checkSyncing` sets
`syncing` from the downloader's events.

The two goroutines share `IsMasternode` and `syncing` by atomic loads and stores, so the manager takes one event at a
time, in any interleaving of the two. What a tick reads of the chain and the pool is part of its event (`PingEnv`).
Events carry the ids of the contract's logs: `ContractJoin.Id` and `ContractQuit.Id` are `[8]byte`.

Left out: the subscriptions' error cases, the NTP timer and the logs. None of them writes `IsMasternode`, `syncing`
or a transaction.
-/

namespace Etherzero.MasternodeManager

open Masternode (Address)

/-- `params.MasterndeContractAddress`. -/
def masternodeContractAddress : Address := 0xa

/-- What a ping tick reads. `balance` and `power` are the node account's in the current state. `gasPrice` is the
suggested price, `none` for an error. `nonce` is the pool's for the account. `signs` says whether `SignTx` succeeds. -/
structure PingEnv where
  balance : Nat
  gasPrice : Option Nat
  power : Nat
  nonce : Nat
  signs : Bool

/-- A transaction handed to `txPool.AddLocal`, from `types.NewTransaction(nonce, to, value, gas, gasPrice, nil)`; `toAddress` is `to`. -/
structure PingTx where
  nonce : Nat
  toAddress : Address
  value : Nat
  gas : Nat
  gasPrice : Nat
  deriving DecidableEq, Repr

/-- The manager's `IsMasternode` and `syncing`, and the ping transactions it handed to the pool, in order. -/
structure Manager where
  isMasternode : UInt32
  syncing : Int32
  submitted : List PingTx
  deriving DecidableEq, Repr

/-- The manager as `masternodeLoop` starts. `IsMasternode` comes from `contract.Has(X8())`, which reads as false when
the call fails. -/
def Manager.start (has : Bool) : Manager := ⟨if has then 1 else 0, 0, []⟩

/-- An event of `masternodeLoop`'s `select` or of `checkSyncing`'s range over the downloader's events. -/
inductive Event where
  | join (id : Vector UInt8 8)
  | quit (id : Vector UInt8 8)
  | ping (env : PingEnv)
  | downloaderStart
  | downloaderDone
  | downloaderFailed

/-- `bytes.Equal`. -/
def bytesEqual (a b : List UInt8) : Bool := a == b

/-- The ping case, after `ping.Reset`: each check that fails ends the case with a log. -/
def Manager.ping (m : Manager) (env : PingEnv) : Manager :=
  if m.isMasternode = 0 then m
  else if m.syncing = 1 then m
  else if env.balance < 10 ^ 16 then m
  else
    -- a failed price suggestion falls back to 20 gwei
    let gasPrice := env.gasPrice.getD (20 * 10 ^ 9)
    let minPower := 90000 * gasPrice
    if env.power < minPower then m
    else if !env.signs then m
    else { m with submitted := m.submitted ++ [⟨env.nonce, masternodeContractAddress, 0, 90000, gasPrice⟩] }

/-- One event, for the node whose public key's coordinates are `xy` (`XY()`, 64 bytes). -/
def Manager.handle (xy : Vector UInt8 64) (m : Manager) : Event → Manager
  | .join id => if bytesEqual id.toList xy.toList then { m with isMasternode := 1 } else m
  | .quit id => if bytesEqual id.toList (xy.toList.take 8) then { m with isMasternode := 0 } else m
  | .ping env => m.ping env
  | .downloaderStart => { m with syncing := 1 }
  | .downloaderDone => { m with syncing := 0 }
  | .downloaderFailed => { m with syncing := 0 }

/-- The events one after another. -/
def Manager.run (xy : Vector UInt8 64) (m : Manager) (es : List Event) : Manager := es.foldl (Manager.handle xy) m

end Etherzero.MasternodeManager
