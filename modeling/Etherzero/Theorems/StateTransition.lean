import Mathlib
import Etherzero.Lemmas.StateTransition

/-!
# The gas of a state transition and the sender's power

A transition that returns no error uses at most the gas of its message, and the block's gas pool loses exactly the gas
used. When the gas has a price, the sender pays for the gas used with power: its stored power afterwards is the power
it had at the block before, less the gas used at the price, and that is not negative, since `buyGas` checked that the
power covers all the gas bought. This needs the sender's balance to keep power in every state the call passes through,
so that each change of the balance finds the power up to date. A message whose gas has no price pays nothing, and
`SubPower` of zero does not bring the power up to date: the stored power is then the one of an earlier block.
-/

namespace Etherzero.Core

open Etherzero.Power Etherzero.Power.StateDB

section Transition

variable {curve : PowerCurve} {rules : ChainRules} {blockNumber : Nat} {run : Interpreter}
  {createAddress : Address → Nat → Address}

/-- The gas accounting of `TransitionDb` under the power model, for every interpreter that keeps its contract: the gas
used is at most the message's gas, and the pool loses exactly the gas used; when the gas has a price and the sender's
balance has power in every state of the call, the sender's stored power afterwards is its power at the block before
less the gas used at the price, which is not negative. -/
theorem transitionDb_gas_power (hspec : EvmSpec curve blockNumber run) (refundCounter : Nat) (msg : Message)
    (gp : Nat) (s : StateDB) (r : TransitionResult)
    (h : transitionDb curve rules blockNumber run createAddress refundCounter msg gp s = .ok r) :
    r.usedGas ≤ msg.gas ∧ r.gp + r.usedGas = gp ∧
      (0 < msg.gasPrice → (∀ v ∈ r.call.state :: r.call.trace, minPowerBalance ≤ v.getBalance msg.sender) →
        (r.state.accounts msg.sender).power = s.getPower curve msg.sender blockNumber - r.usedGas * msg.gasPrice ∧
        0 ≤ (r.state.accounts msg.sender).power) := by
  obtain ⟨gp₁, s₁, igas, gas, hpre, higas, hle, hcall, herr, hrefund, hused⟩ := transitionDb_eq_ok h
  obtain ⟨hpower, hgp, rfl, rfl⟩ := buyGas_eq_ok (buyGas_of_preCheck hpre)
  obtain ⟨rfl, hgp', hstate⟩ := refundGas_eq_ok hrefund
  have hleft : r.call.leftOverGas ≤ msg.gas := by
    rw [hcall]
    exact (messageCall_leftOverGas_le hspec ..).trans (Nat.sub_le ..)
  have hgas := refund_le_gas refundCounter hleft
  refine ⟨by omega, by omega, fun hprice hbal => ?_⟩
  -- the gas bought has a price, so `SubPower` brought the power up to the block
  have hmg : (msg.gas * msg.gasPrice : Int) ≠ 0 := by
    have hgas₀ : 0 < msg.gas := lt_of_lt_of_le (by decide) ((intrinsicGas_ge higas).trans hle)
    positivity
  have hbuy := subPower_accounts_self curve s msg.sender blockNumber hmg
  have hsettled := messageCall_settled hspec (by rw [hbuy]) (by rw [hbuy]) (hcall ▸ herr) (hcall ▸ hbal)
  rw [← hcall] at hsettled
  -- `refundGas` adds the gas given back at the price to the stored power
  have hfinal : (r.state.accounts msg.sender).power =
      s.getPower curve msg.sender blockNumber - r.usedGas * msg.gasPrice := by
    rw [hstate, addPower_accounts_self, hsettled.power, hused, Nat.cast_sub hgas]
    ring
  refine ⟨hfinal, ?_⟩
  have hmono : (r.usedGas * msg.gasPrice : Int) ≤ msg.gas * msg.gasPrice := by
    rw [hused]
    exact_mod_cast Nat.mul_le_mul_right msg.gasPrice (Nat.sub_le msg.gas _)
  rw [hfinal]
  linarith

end Transition

/-- `IntrinsicGas` is the base plus the price of the payload's non-zero and zero bytes, over unbounded integers, and
its two guards fail exactly when that sum leaves uint64. -/
theorem intrinsicGas_eq_sum (data : List UInt8) (contractCreation homestead : Bool) :
    intrinsicGas data contractCreation homestead =
      let total := (if contractCreation ∧ homestead then TxGasContractCreation else TxGas) +
        TxDataNonZeroGas * data.countP (· ≠ 0) + TxDataZeroGas * data.countP (· = 0)
      if MaxUint64 < total then .error .outOfGas else .ok total := by
  have hbase : (if contractCreation ∧ homestead then TxGasContractCreation else TxGas) ≤ TxGasContractCreation := by
    split <;> decide
  have hnz : (data.filter (· ≠ 0)).length = data.countP (· ≠ 0) := (List.countP_eq_length_filter ..).symm
  have hz : data.length - data.countP (· ≠ 0) = data.countP (· = 0) := by
    have h := List.length_eq_countP_add_countP (fun b : UInt8 => decide (b ≠ 0)) (l := data)
    simp only [ne_eq, decide_eq_true_eq, not_not] at h ⊢
    omega
  unfold intrinsicGas
  dsimp only
  generalize (if contractCreation ∧ homestead then TxGasContractCreation else TxGas) = base at hbase ⊢
  have hM : base ≤ MaxUint64 := hbase.trans (by decide)
  split
  · -- the payload's bytes, non-zero first, each guard against what is left of uint64
    rw [hnz, hz]
    generalize data.countP (· ≠ 0) = nz
    by_cases hover₁ : MaxUint64 < base + TxDataNonZeroGas * nz
    · rw [if_pos ((sub_div_lt_iff (by decide) hM).mpr hover₁), if_pos (by omega)]
    · rw [if_neg (mt (sub_div_lt_iff (by decide) hM).mp hover₁), Nat.mul_comm nz]
      have hM₁ : base + TxDataNonZeroGas * nz ≤ MaxUint64 := by omega
      by_cases hover₂ : MaxUint64 < base + TxDataNonZeroGas * nz + TxDataZeroGas * data.countP (· = 0)
      · rw [if_pos ((sub_div_lt_iff (by decide) hM₁).mpr hover₂), if_pos hover₂]
      · rw [if_neg (mt (sub_div_lt_iff (by decide) hM₁).mp hover₂), if_neg hover₂, Nat.mul_comm _ TxDataZeroGas]
  · -- no payload: both counts are zero and the base fits
    rename_i hlen
    have hnil : data = [] := List.eq_nil_of_length_eq_zero (by omega)
    subst hnil
    rw [List.countP_nil, List.countP_nil, if_neg (by omega)]
    simp

/-- The power that `CalculatePower` gives a balance of 1 etz: a cap of 200000 and a speed of 1000 a block, each
scaled by 18e9. -/
def oneEtzCurve : PowerCurve := ⟨fun _ => 3600000000000000, fun _ gap => gap * 18000000000000⟩

/-- A state with one account, of 1 etz, whose power was last brought up to date at block 0 with none. -/
def oneEtzState : StateDB := ⟨fun a => if a = 1 then ⟨0, 10 ^ 18, 0, 0⟩ else Account.empty, []⟩

/-- A transfer of nothing from that account to another, with the least gas, at a price of `gasPrice`. -/
def transferOfNothing (gasPrice : Nat) : Message := ⟨1, some 2, gasPrice, 21000, 0, 0, false, []⟩

/-- At block 1 and a price of 1, the account pays the 21000 gas of the transfer with the power it gained since
block 0. -/
theorem transitionDb_gas_power_price_one :
    ∃ r, transitionDb oneEtzCurve ⟨true, true⟩ 1 emptyCode (fun _ _ => 3) 0 (transferOfNothing 1) 21000 oneEtzState =
        .ok r ∧ (∀ v ∈ r.call.state :: r.call.trace, minPowerBalance ≤ v.getBalance 1) ∧
      ((r.state.accounts 1).power = oneEtzState.getPower oneEtzCurve 1 1 - r.usedGas * (1 : Nat) ∧
        0 ≤ (r.state.accounts 1).power) :=
  ⟨_, rfl, by decide,
    (transitionDb_gas_power (emptyCode_evmSpec oneEtzCurve 1) 0 (transferOfNothing 1) 21000 oneEtzState _ rfl).2.2
      (by decide) (by decide)⟩

/-- At a price of 0 nothing is paid and the power is not brought up to date: the stored power stays the 0 of block 0,
while the account has 1.8e13 at block 1. -/
theorem transitionDb_gas_power_price_zero :
    ∃ r, transitionDb oneEtzCurve ⟨true, true⟩ 1 emptyCode (fun _ _ => 3) 0 (transferOfNothing 0) 21000 oneEtzState =
        .ok r ∧ (∀ v ∈ r.call.state :: r.call.trace, minPowerBalance ≤ v.getBalance 1) ∧
      (r.state.accounts 1).power ≠ oneEtzState.getPower oneEtzCurve 1 1 - r.usedGas * (0 : Nat) :=
  ⟨_, rfl, by decide, by decide⟩

end Etherzero.Core
