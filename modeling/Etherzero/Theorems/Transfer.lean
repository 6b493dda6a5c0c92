import Mathlib
import Etherzero.Lemmas.Power

/-!
# What a transfer does to power

`Transfer` is `SubBalance` of the sender then `AddBalance` of the recipient, and each change of a balance first brings
the power up to the block from the balance the account has at that moment. Between two accounts this stores, for each,
the power at the block from its balance before the transfer. A transfer of an account to itself passes through the
balance less the amount: when that is below 1e16, `AddBalance` finds no power and stores none, and the account loses
the power it had although its balance comes back.
-/

namespace Etherzero.Power.StateDB

variable (curve : PowerCurve) (s : StateDB) {amount : Nat} (blockNumber : Nat)

/-- A transfer changes only its two accounts. -/
theorem transfer_accounts_of_ne {sender recipient c : Address} (hs : c ≠ sender) (hr : c ≠ recipient) :
    (s.transfer curve sender recipient amount blockNumber).accounts c = s.accounts c := by
  rw [transfer, addBalance_accounts_of_ne curve _ recipient blockNumber hr,
    subBalance_accounts_of_ne curve s sender blockNumber hs]

/-- A transfer of an amount between two accounts moves it, and stores for each the power at the block from its balance
before. -/
theorem transfer_accounts (sender recipient : Address) (hv : amount ≠ 0) (hne : sender ≠ recipient) :
    (s.transfer curve sender recipient amount blockNumber).accounts sender =
        { s.accounts sender with balance := (s.accounts sender).balance - amount,
                                 power := s.getPower curve sender blockNumber, blockNumber := blockNumber } ∧
      (s.transfer curve sender recipient amount blockNumber).accounts recipient =
        { s.accounts recipient with balance := (s.accounts recipient).balance + amount,
                                    power := s.getPower curve recipient blockNumber, blockNumber := blockNumber } := by
  have hother := subBalance_accounts_of_ne curve s sender blockNumber (Ne.symm hne) amount
  constructor
  · rw [transfer, addBalance_accounts_of_ne curve _ recipient blockNumber hne, subBalance_accounts_self curve s _ _ hv]
  · rw [transfer, addBalance_accounts_self curve _ _ _ hv, getPower, hother, ← getPower]

/-- A transfer of an amount from an account to itself gives the balance back, but the power the second half stores is
computed from the balance less the amount: none when that is below 1e16. -/
theorem transfer_accounts_self (a : Address) (hv : amount ≠ 0) (hle : amount ≤ (s.accounts a).balance) :
    (s.transfer curve a a amount blockNumber).accounts a =
      { s.accounts a with power := if (s.accounts a).balance - amount < minPowerBalance then 0
                                   else s.getPower curve a blockNumber,
                          blockNumber := blockNumber } := by
  rw [transfer, addBalance_accounts_self curve _ _ _ hv, getPower, subBalance_accounts_self curve s _ _ hv]
  dsimp only
  rw [calculatePower_same_block, Nat.sub_add_cancel hle]

/-- An account of 1e16 with a power of 5 stored at block 0. -/
def thresholdState : StateDB := ⟨fun a => if a = 1 then ⟨1, 10 ^ 16, 5, 0⟩ else Account.empty, []⟩

/-- At block 0 its power is 5, for every curve; a transfer of 1 wei from it to itself leaves its balance as it was and
its power 0. -/
theorem transfer_self_loses_power (curve : PowerCurve) :
    thresholdState.getPower curve 1 0 = 5 ∧
      (thresholdState.transfer curve 1 1 1 0).accounts 1 = { thresholdState.accounts 1 with power := 0 } := by
  have hpower : thresholdState.getPower curve 1 0 = 5 := by
    simp [getPower, thresholdState, calculatePower, minPowerBalance]
  refine ⟨hpower, ?_⟩
  rw [transfer_accounts_self curve thresholdState 0 1 (by decide) (by decide)]
  simp [thresholdState, minPowerBalance]

end Etherzero.Power.StateDB
