import Mathlib
import Etherzero.Lemmas.TxList

/-!
# The caps of a txList bound its transactions

Over every run of `txList` operations, in every order Go's `range` takes over the map, the three caps bound the
transactions the list holds; so `Filter`, short cut included, removes exactly what it is asked to.
-/

namespace Etherzero.TxPool

/-- From a new list, every run of `Add` (at any price bump), `Forward`, `Filter`, `Cap`, `Remove` and `Ready`, with any
order of their loops, leaves every transaction within the caps of cost, gas and value; and `Filter`, at any limits
and in any order, then removes exactly the transactions over a limit, in strict mode also exactly those it leaves of
a nonce above a removed one, and keeps the rest. -/
theorem run_capsHold_filterSpec (strict : Bool) (ops : List (RangeOrder UInt64 Transaction × TxListOp)) :
    ((TxList.new strict).run ops).CapsHold ∧
      ∀ (order : RangeOrder UInt64 Transaction) (valueLimit costLimit : Nat) (gasLimit : UInt64),
        TxList.FilterSpec ((TxList.new strict).run ops) valueLimit costLimit gasLimit
          (((TxList.new strict).run ops).filter order valueLimit costLimit gasLimit).1.1
          (((TxList.new strict).run ops).filter order valueLimit costLimit gasLimit).1.2
          (((TxList.new strict).run ops).filter order valueLimit costLimit gasLimit).2 := by
  have hcaps := TxList.CapsHold.run ops (TxList.capsHold_new strict)
  exact ⟨hcaps, fun order valueLimit costLimit gasLimit => hcaps.filterSpec order valueLimit costLimit gasLimit⟩

end Etherzero.TxPool
