import Mathlib

/-!
# LES flow control (les/flowcontrol/control.go, les/handler.go, les/peer.go)

A server keeps a `ClientNode` for each client and a client a `ServerNode` for each server. Both hold a buffer value
in `uint64`. It recharges by `MinRecharge` per millisecond up to `BufLimit`. A request costs some of it: the server
charges the cost it measured (`RequestProcessed`), and the client takes its own estimate off (`QueueRequest`) until
the reply brings the server's value (`GotReply`). The parameters come from the server's handshake (`flowControl/BL`,
`flowControl/MRR`) and are not checked.

All arithmetic is Go's `uint64` arithmetic, which wraps: `UInt64` here. Integer division by zero panics in Go, where
Lean's gives 0, so `canSend` and `reject` return `none` where Go would panic. `mclock.AbsTime` is a count of
nanoseconds of a clock that starts at 0: a `Nat` here, where `uint64(time - lastTime)` is exact as long as the clock
stays below 2^63 ns.

The `ClientManager` behind a `ClientNode` is not modelled: what `cm.accept` and `cm.processed` answer comes with the
call. A request served alone for `d` nanoseconds returns `rcValue = d`. The locks only make each call atomic.
-/

namespace Etherzero.Flowcontrol

/-- `fcTimeConst`: `time.Millisecond`, in nanoseconds. -/
def fcTimeConst : UInt64 := 1000000

/-- `safetyMargin`: `time.Millisecond`. -/
def safetyMargin : UInt64 := 1000000

/-- `ServerParams`. -/
structure ServerParams where
  bufLimit : UInt64
  minRecharge : UInt64
  deriving DecidableEq, Repr

/-- The recharge that `recalcBV` and `recalcBLE` share: the value `v`, set at `lastTime`, recharged up to `time`. -/
def recharge (params : ServerParams) (v : UInt64) (lastTime time : Nat) : UInt64 :=
  let dt : UInt64 := if time < lastTime then 0 else UInt64.ofNat (time - lastTime)
  let v := v + params.minRecharge * dt / fcTimeConst
  if v > params.bufLimit then params.bufLimit else v

/-! ## The server's node of a client -/

/-- `ClientNode`. -/
structure ClientNode where
  params : ServerParams
  bufValue : UInt64
  lastTime : Nat
  deriving DecidableEq, Repr

/-- `NewClientNode`, at `now`. -/
def newClientNode (params : ServerParams) (now : Nat) : ClientNode := ⟨params, params.bufLimit, now⟩

/-- `recalcBV`. -/
def ClientNode.recalcBV (peer : ClientNode) (time : Nat) : ClientNode :=
  { peer with bufValue := recharge peer.params peer.bufValue peer.lastTime time, lastTime := time }

/-- `AcceptRequest` at `time`, with `accepted` the answer of `cm.accept`: the node after, the buffer value and the
answer. -/
def ClientNode.acceptRequest (peer : ClientNode) (time : Nat) (accepted : Bool) : ClientNode × UInt64 × Bool :=
  let peer := peer.recalcBV time
  (peer, peer.bufValue, accepted)

/-- `RequestProcessed(cost)` at `time`, with `rcValue` and `rcost` what `cm.processed` returns: the node after, the
buffer value and the cost it reports. -/
def ClientNode.requestProcessed (peer : ClientNode) (time : Nat) (cost rcValue rcost : UInt64) :
    ClientNode × UInt64 × UInt64 :=
  let peer := peer.recalcBV time
  let peer := { peer with bufValue := peer.bufValue - cost }
  let peer := peer.recalcBV time
  let peer :=
    if rcValue < peer.params.bufLimit then
      let bv := peer.params.bufLimit - rcValue
      if bv > peer.bufValue then { peer with bufValue := bv } else peer
    else peer
  (peer, peer.bufValue, rcost)

/-- A message code's entry of `fcCosts`. -/
structure RequestCosts where
  baseCost : UInt64
  reqCost : UInt64
  deriving DecidableEq, Repr

/-- `reject(reqCnt, maxCnt)` of `handleMsg`, for a client whose node is `fcClient`, at `time`, under the server's own
`defParams`; `accepted` is what `cm.accept` answers, which `reject` drops. The node after, and whether the request is
rejected; `none` where the division of the log line panics. -/
def reject (defParams : ServerParams) (costs : RequestCosts) (fcClient : Option ClientNode) (time : Nat)
    (accepted : Bool) (reqCnt maxCnt : UInt64) : Option (Option ClientNode × Bool) :=
  match fcClient with
  | none => some (none, true)
  | some peer =>
    if reqCnt > maxCnt then some (some peer, true)
    else
      let (peer, bufValue, _) := peer.acceptRequest time accepted
      let cost := costs.baseCost + reqCnt * costs.reqCost
      let cost := if cost > defParams.bufLimit then defParams.bufLimit else cost
      if cost > bufValue then
        -- the wait logged with the rejection divides by `MinRecharge`
        if defParams.minRecharge = 0 then none else some (some peer, true)
      else some (some peer, false)

/-- A call on a `ClientNode`. -/
inductive ClientCall where
  /-- `AcceptRequest`, with the clock and `cm.accept`'s answer -/
  | accept (time : Nat) (accepted : Bool)
  /-- `RequestProcessed(cost)`, with the clock and `cm.processed`'s answer -/
  | processed (time : Nat) (cost rcValue rcost : UInt64)

/-- One call. -/
def ClientNode.call (peer : ClientNode) : ClientCall → ClientNode
  | .accept time accepted => (peer.acceptRequest time accepted).1
  | .processed time cost rcValue rcost => (peer.requestProcessed time cost rcValue rcost).1

/-- Calls one after another. -/
def ClientNode.run (peer : ClientNode) (calls : List ClientCall) : ClientNode :=
  calls.foldl ClientNode.call peer

/-! ## The client's node of a server -/

/-- `ServerNode`; `pending` is the map from a request's ID to `sumCost` after it was queued. -/
structure ServerNode where
  bufEstimate : UInt64
  lastTime : Nat
  params : ServerParams
  sumCost : UInt64
  pending : UInt64 → Option UInt64

/-- `NewServerNode`, at `now`. -/
def newServerNode (params : ServerParams) (now : Nat) : ServerNode := ⟨params.bufLimit, now, params, 0, fun _ => none⟩

/-- `recalcBLE`. -/
def ServerNode.recalcBLE (peer : ServerNode) (time : Nat) : ServerNode :=
  { peer with bufEstimate := recharge peer.params peer.bufEstimate peer.lastTime time, lastTime := time }

/-- `canSend(maxCost)` at `time`: the node after, and the wait as a `time.Duration` with the relative buffer level
after sending; `none` where the division by `MinRecharge` panics. -/
def ServerNode.canSend (peer : ServerNode) (time : Nat) (maxCost : UInt64) : ServerNode × Option (Int64 × Float) :=
  let peer := peer.recalcBLE time
  let maxCost := maxCost + safetyMargin * peer.params.minRecharge / fcTimeConst
  let maxCost := if maxCost > peer.params.bufLimit then peer.params.bufLimit else maxCost
  if peer.bufEstimate ≥ maxCost then
    (peer, some (0, (peer.bufEstimate - maxCost).toFloat / peer.params.bufLimit.toFloat))
  else if peer.params.minRecharge = 0 then (peer, none)
  else (peer, some (((maxCost - peer.bufEstimate) * fcTimeConst / peer.params.minRecharge).toInt64, 0))

/-- `QueueRequest(reqID, maxCost)`. -/
def ServerNode.queueRequest (peer : ServerNode) (reqID maxCost : UInt64) : ServerNode :=
  let peer := { peer with bufEstimate := peer.bufEstimate - maxCost, sumCost := peer.sumCost + maxCost }
  { peer with pending := Function.update peer.pending reqID (some peer.sumCost) }

/-- `GotReply(reqID, bv)`, with the clock at `now`. -/
def ServerNode.gotReply (peer : ServerNode) (reqID bv : UInt64) (now : Nat) : ServerNode :=
  let bv := if bv > peer.params.bufLimit then peer.params.bufLimit else bv
  match peer.pending reqID with
  | none => peer
  | some sc =>
    let peer := { peer with pending := Function.update peer.pending reqID none }
    let cc := peer.sumCost - sc
    { peer with bufEstimate := if bv > cc then bv - cc else 0, lastTime := now }

/-- A call on a `ServerNode`. -/
inductive ServerCall where
  /-- `CanSend(maxCost)`, with the clock -/
  | canSend (time : Nat) (maxCost : UInt64)
  /-- `QueueRequest(reqID, maxCost)` -/
  | queueRequest (reqID maxCost : UInt64)
  /-- `GotReply(reqID, bv)`, with the clock -/
  | gotReply (reqID bv : UInt64) (time : Nat)

/-- One call; `none` if it panics. -/
def ServerNode.call (peer : ServerNode) : ServerCall → Option ServerNode
  | .canSend time maxCost =>
    let r := peer.canSend time maxCost
    r.2.map fun _ => r.1
  | .queueRequest reqID maxCost => some (peer.queueRequest reqID maxCost)
  | .gotReply reqID bv time => some (peer.gotReply reqID bv time)

/-- Calls one after another, as long as none panics. -/
def ServerNode.run (peer : ServerNode) : List ServerCall → Option ServerNode
  | [] => some peer
  | c :: cs => (peer.call c).bind fun peer => peer.run cs

end Etherzero.Flowcontrol
