import Mathlib
import Etherzero.Lib.GoMap

/-!
# The transactions of one account (tx_list.go)

`txSortedMap` holds an account's transactions by nonce, with a heap of their nonces. `txList` adds the mode, strict for
the pending list and gapped for the queue, and three caps: the largest cost, gas limit and value of a transaction it
accepted, which `Filter` uses to skip the loop when every limit is above them. The heap is `container/heap` over the
nonces: its root is the least nonce and `Pop` removes it, so it is modelled by the list of its elements with these two
operations; the sorted cache `Flatten` keeps is left out.
-/

namespace Etherzero.TxPool

/-- The fields of a transaction that the list reads. -/
structure Transaction where
  nonce : UInt64
  gasPrice : Nat
  gas : UInt64
  value : Nat
  deriving DecidableEq, Repr

/-- `Cost`: the price times the gas limit; this fork leaves the value out of it. -/
def Transaction.cost (tx : Transaction) : Nat := tx.gasPrice * tx.gas.toNat

/-! ## The heap of nonces -/

/-- `(*m.index)[0]`: the root of the heap, its least nonce. -/
def heapRoot (index : List UInt64) : Option UInt64 := index.min?

theorem length_erase_heapRoot {index : List UInt64} {n : UInt64} (h : heapRoot index = some n) :
    (index.erase n).length < index.length := by
  have hmem := List.min?_mem h
  rw [List.length_erase_of_mem hmem]
  have := List.length_pos_of_mem hmem
  omega

/-! ## txSortedMap -/

/-- `txSortedMap`: the transactions by nonce, and the heap of their nonces. -/
structure TxSortedMap where
  items : AList (fun _ : UInt64 => Transaction)
  index : List UInt64

namespace TxSortedMap

/-- `newTxSortedMap`. -/
def new : TxSortedMap := ⟨∅, []⟩

/-- `Get`. -/
def get (m : TxSortedMap) (nonce : UInt64) : Option Transaction := m.items.lookup nonce

/-- `Put`: the transaction under its nonce, the nonce pushed to the heap when it is new. -/
def put (m : TxSortedMap) (tx : Transaction) : TxSortedMap :=
  { items := m.items.insert tx.nonce tx
    index := if m.items.lookup tx.nonce = none then m.index ++ [tx.nonce] else m.index }

/-- The loop of `Forward`: pop the heap while its root is below the threshold. -/
def forwardLoop (threshold : UInt64) (m : TxSortedMap) (removed : List Transaction) :
    List Transaction × TxSortedMap :=
  match hroot : heapRoot m.index with
  | some nonce =>
    have _hshrink := length_erase_heapRoot hroot
    if nonce < threshold then
      forwardLoop threshold ⟨m.items.erase nonce, m.index.erase nonce⟩ (removed ++ (m.items.lookup nonce).toList)
    else (removed, m)
  | none => (removed, m)
termination_by m.index.length
decreasing_by exact _hshrink

/-- `Forward`: remove the transactions of nonce below the threshold. -/
def forward (m : TxSortedMap) (threshold : UInt64) : List Transaction × TxSortedMap := forwardLoop threshold m []

/-- `Filter`: remove the transactions `filter` selects, in the order `range` visits the map; when it removed any,
the heap is rebuilt from the nonces left. -/
def filter (order : RangeOrder UInt64 Transaction) (m : TxSortedMap) (f : Transaction → Bool) :
    List Transaction × TxSortedMap :=
  let r := rangeDelete order f m.items
  if r.1.length > 0 then (r.1, ⟨r.2, r.2.keys⟩) else (r.1, ⟨r.2, m.index⟩)

/-- One turn of `Cap`'s loop at `size`: drop the transaction under the `size - 1`-th of the sorted nonces. -/
def capStep (sorted : List UInt64) (acc : List Transaction × AList (fun _ : UInt64 => Transaction)) (size : Nat) :
    List Transaction × AList (fun _ : UInt64 => Transaction) :=
  let nonce := sorted.getD (size - 1) 0
  (acc.1 ++ (acc.2.lookup nonce).toList, acc.2.erase nonce)

/-- `Cap`: keep the `threshold` transactions of least nonce, returning the others, highest nonce first. -/
def cap (m : TxSortedMap) (threshold : Nat) : List Transaction × TxSortedMap :=
  if m.items.entries.length ≤ threshold then ([], m)
  else
    let sorted := m.index.insertionSort (· ≤ ·)
    -- `for size := len(m.items); size > threshold; size--`
    let sizes := (List.range (m.items.entries.length - threshold)).map fun k => m.items.entries.length - k
    let r := sizes.foldl (capStep sorted) ([], m.items)
    (r.1, ⟨r.2, sorted.take threshold⟩)

/-- `Remove`: delete the transaction of the nonce, if there is one. -/
def remove (m : TxSortedMap) (nonce : UInt64) : Bool × TxSortedMap :=
  if m.items.lookup nonce = none then (false, m)
  else (true, ⟨m.items.erase nonce, m.index.erase nonce⟩)

/-- The loop of `Ready`: pop the heap while its root is the next nonce of the run. -/
def readyLoop (next : UInt64) (m : TxSortedMap) (ready : List Transaction) : List Transaction × TxSortedMap :=
  match hroot : heapRoot m.index with
  | some first =>
    have _hshrink := length_erase_heapRoot hroot
    if first = next then
      readyLoop (next + 1) ⟨m.items.erase next, m.index.erase first⟩ (ready ++ (m.items.lookup next).toList)
    else (ready, m)
  | none => (ready, m)
termination_by m.index.length
decreasing_by exact _hshrink

/-- `Ready`: the run of consecutive nonces from the least one, when that one is not above `start`. -/
def ready (m : TxSortedMap) (start : UInt64) : List Transaction × TxSortedMap :=
  match heapRoot m.index with
  | some first => if first > start then ([], m) else readyLoop first m []
  | none => ([], m)

/-- `Len`. -/
def len (m : TxSortedMap) : Nat := m.items.entries.length

end TxSortedMap

/-! ## txList -/

/-- `txList`: the mode, the transactions, and the caps of cost, gas and value. -/
structure TxList where
  strict : Bool
  txs : TxSortedMap
  costcap : Nat
  gascap : UInt64
  valuecap : Nat

namespace TxList

/-- `newTxList`: an empty list, its caps zero. -/
def new (strict : Bool) : TxList := ⟨strict, TxSortedMap.new, 0, 0, 0⟩

/-- `Overlaps`. -/
def overlaps (l : TxList) (tx : Transaction) : Bool := (l.txs.get tx.nonce).isSome

/-- The list with `tx` put in it and the caps raised to its cost, gas and value. -/
def accept (l : TxList) (tx : Transaction) : TxList :=
  { l with
    txs := l.txs.put tx
    costcap := if l.costcap < tx.cost then tx.cost else l.costcap
    gascap := if l.gascap < tx.gas then tx.gas else l.gascap
    valuecap := if l.valuecap < tx.value then tx.value else l.valuecap }

/-- `Add`: a transaction of a nonce already held replaces it only when its price is higher than the old one's and
at least `100 + priceBump` percent of it (`int64` arithmetic for the percentage, big integers for the rest). -/
def add (l : TxList) (tx : Transaction) (priceBump : UInt64) : (Bool × Option Transaction) × TxList :=
  match l.txs.get tx.nonce with
  | some old =>
    let threshold : Int := (old.gasPrice : Int) * ((100 : Int64) + priceBump.toInt64).toInt / 100
    if old.gasPrice ≥ tx.gasPrice ∨ threshold > tx.gasPrice then ((false, none), l)
    else ((true, some old), l.accept tx)
  | none => ((true, none), l.accept tx)

/-- `Forward`. -/
def forward (l : TxList) (threshold : UInt64) : List Transaction × TxList :=
  let r := l.txs.forward threshold
  (r.1, { l with txs := r.2 })

/-- The condition `Filter` removes a transaction on: a value, cost or gas above the limits. -/
def overLimit (valueLimit costLimit : Nat) (gasLimit : UInt64) (tx : Transaction) : Bool :=
  decide (tx.value > valueLimit) || decide (tx.cost > costLimit) || decide (tx.gas > gasLimit)

/-- The least nonce of the removed transactions, as `Filter`'s loop finds it from `math.MaxUint64`. -/
def lowestNonce (removed : List Transaction) : UInt64 :=
  removed.foldl (fun lowest tx => if lowest > tx.nonce then tx.nonce else lowest) (UInt64.ofNat (2 ^ 64 - 1))

/-- `Filter`: skip when the caps are within the limits; otherwise lower the caps to the limits, remove the
transactions over them, and in strict mode those of a nonce above the least one removed. -/
def filter (order : RangeOrder UInt64 Transaction) (l : TxList) (valueLimit costLimit : Nat) (gasLimit : UInt64) :
    (List Transaction × List Transaction) × TxList :=
  if l.valuecap ≤ valueLimit ∧ l.costcap ≤ costLimit ∧ l.gascap ≤ gasLimit then (([], []), l)
  else
    let r := l.txs.filter order (overLimit valueLimit costLimit gasLimit)
    let l' : TxList := { l with txs := r.2, costcap := costLimit, gascap := gasLimit, valuecap := valueLimit }
    if l.strict ∧ r.1.length > 0 then
      let lowest := lowestNonce r.1
      let r' := r.2.filter order fun tx => decide (tx.nonce > lowest)
      ((r.1, r'.1), { l' with txs := r'.2 })
    else ((r.1, []), l')

/-- `Cap`. -/
def cap (l : TxList) (threshold : Nat) : List Transaction × TxList :=
  let r := l.txs.cap threshold
  (r.1, { l with txs := r.2 })

/-- `Remove`: delete the transaction of `tx`'s nonce; in strict mode also those of a higher nonce. -/
def remove (order : RangeOrder UInt64 Transaction) (l : TxList) (tx : Transaction) :
    (Bool × List Transaction) × TxList :=
  let r := l.txs.remove tx.nonce
  if !r.1 then ((false, []), l)
  else if l.strict then
    let r' := r.2.filter order fun t => decide (t.nonce > tx.nonce)
    ((true, r'.1), { l with txs := r'.2 })
  else ((true, []), { l with txs := r.2 })

/-- `Ready`. -/
def ready (l : TxList) (start : UInt64) : List Transaction × TxList :=
  let r := l.txs.ready start
  (r.1, { l with txs := r.2 })

end TxList

/-- The operations on a `txList`. -/
inductive TxListOp where
  | add (tx : Transaction) (priceBump : UInt64)
  | forward (threshold : UInt64)
  | filter (valueLimit costLimit : Nat) (gasLimit : UInt64)
  | cap (threshold : Nat)
  | remove (tx : Transaction)
  | ready (start : UInt64)

/-- The list after one operation, its loops over the map in the order `order`. -/
def TxList.apply (l : TxList) (order : RangeOrder UInt64 Transaction) : TxListOp → TxList
  | .add tx priceBump => (l.add tx priceBump).2
  | .forward threshold => (l.forward threshold).2
  | .filter valueLimit costLimit gasLimit => (l.filter order valueLimit costLimit gasLimit).2
  | .cap threshold => (l.cap threshold).2
  | .remove tx => (l.remove order tx).2
  | .ready start => (l.ready start).2

/-- The list after a sequence of operations, each with the order its loops visit the map in. -/
def TxList.run : TxList → List (RangeOrder UInt64 Transaction × TxListOp) → TxList
  | l, [] => l
  | l, (order, op) :: ops => (l.apply order op).run ops

end Etherzero.TxPool
