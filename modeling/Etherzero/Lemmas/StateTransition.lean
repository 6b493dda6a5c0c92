import Mathlib
import Etherzero.Lemmas.Power

/-!
# What `evm.Call`, `evm.Create` and the steps of `TransitionDb` do

`evmCall` and `evmCreate` keep the interpreter's contract: they leave at most the gas they are given, and what they do
to the accounts is again a run (their own changes are steps, and their revert gives back the snapshot's state). The
steps of `TransitionDb` each get an inversion lemma, from which `transitionDb_eq_ok` says what a transition that
returns no error did.
-/

namespace Etherzero.Core

open Etherzero.Power Etherzero.Power.StateDB

section Run

variable {curve : PowerCurve} {blockNumber : Nat}

/-- A run followed by a run is a run, the later states first. -/
theorem EvmRun.trans {s t u : StateDB} {seen seen' : List StateDB} (h₁ : EvmRun curve blockNumber s t seen)
    (h₂ : EvmRun curve blockNumber t u seen') : EvmRun curve blockNumber s u (seen' ++ seen) := by
  induction h₂ with
  | start => exact h₁
  | step _ hstep ih => exact ih.step hstep
  | revert _ hu ih =>
    refine ih.revert ?_
    rcases List.mem_cons.mp hu with rfl | hu
    · exact List.mem_cons_self ..
    · exact List.mem_cons_of_mem _ (List.mem_append_left _ hu)

/-- A run's start is among its states. -/
theorem EvmRun.start_mem {s t : StateDB} {seen : List StateDB} (h : EvmRun curve blockNumber s t seen) :
    s ∈ t :: seen := by
  induction h with
  | start => exact List.mem_singleton_self _
  | step _ _ ih => exact List.mem_cons_of_mem _ ih
  | revert _ _ ih => exact List.mem_cons_of_mem _ ih

/-- A revert to the journal length of the run's start gives the start back: it is a revert step. -/
theorem EvmRun.revertToSnapshot {s t : StateDB} {seen : List StateDB} (h : EvmRun curve blockNumber s t seen) :
    EvmRun curve blockNumber s (t.revertToSnapshot s.journal.length) (t :: seen) := by
  rw [revertToSnapshot_of_journalled (journalled_of_evmRun h t (List.mem_cons_self ..))]
  exact h.revert h.start_mem

end Run

/-- The run of an account with no code: `Run` returns at once, with all the gas and nothing changed. -/
def emptyCode : Interpreter := fun _ _ _ gas _ s => ⟨[], gas, none, s, []⟩

theorem emptyCode_evmSpec (curve : PowerCurve) (blockNumber : Nat) : EvmSpec curve blockNumber emptyCode :=
  ⟨fun _ _ _ gas _ _ => le_refl gas, fun _ _ _ _ _ _ => EvmRun.start⟩

/-! ## `evm.Call` and `evm.Create` keep the interpreter's contract -/

section Evm

variable {curve : PowerCurve} {rules : ChainRules} {blockNumber : Nat} {run : Interpreter}

theorem evmCall_leftOverGas_le (hspec : EvmSpec curve blockNumber run) (caller addr : Address) (input : List UInt8)
    (gas value : Nat) (s : StateDB) : (evmCall curve blockNumber run caller addr input gas value s).leftOverGas ≤ gas := by
  unfold evmCall
  split
  · exact le_refl gas
  · dsimp only
    split
    · exact hspec.leftOverGas_le ..
    · dsimp only
      split
      · exact hspec.leftOverGas_le ..
      · exact Nat.zero_le gas

/-- The transfer of `evm.Call` and the run after it are a run from the state it is called in. -/
theorem evmCall_evmRun (hspec : EvmSpec curve blockNumber run) (caller addr : Address) (input : List UInt8)
    (gas value : Nat) (s : StateDB) :
    EvmRun curve blockNumber s (evmCall curve blockNumber run caller addr input gas value s).state
      (evmCall curve blockNumber run caller addr input gas value s).trace := by
  unfold evmCall
  split
  · exact EvmRun.start
  · rename_i hcan
    dsimp only
    have htransfer := (EvmRun.start.step (.subBalance s caller value (Nat.le_of_not_lt hcan))).step
      (.addBalance (s.subBalance curve caller value blockNumber) addr value)
    have hr := htransfer.trans (hspec.evmRun caller addr input gas value _)
    split
    · exact hr
    · exact hr.revertToSnapshot

theorem storeCode_snd_le (err : Option VmErr) (maxCodeSizeExceeded : Bool) (ret : List UInt8) (leftOverGas : Nat) :
    (storeCode err maxCodeSizeExceeded ret leftOverGas).2 ≤ leftOverGas := by
  unfold storeCode
  split
  · split
    · exact Nat.sub_le ..
    · exact le_refl _
  · exact le_refl _

theorem evmCreate_leftOverGas_le (hspec : EvmSpec curve blockNumber run) (caller : Address) (code : List UInt8)
    (gas value : Nat) (address : Address) (s : StateDB) :
    (evmCreate curve rules blockNumber run caller code gas value address s).leftOverGas ≤ gas := by
  unfold evmCreate
  split
  · exact le_refl gas
  · dsimp only
    split
    · exact Nat.zero_le gas
    · -- what is left is what the run left, less the code's storage gas, or nothing
      have hle : ∀ err m ret t, (storeCode err m ret (run caller address code gas value t).leftOverGas).2 ≤ gas :=
        fun _ _ _ t => (storeCode_snd_le ..).trans (hspec.leftOverGas_le caller address code gas value t)
      rw [apply_ite RunResult.leftOverGas]
      refine (ite_le_sup _ _ _).trans (max_le ?_ (hle ..))
      exact (ite_le_sup _ _ _).trans (max_le (Nat.zero_le gas) (hle ..))

/-- `evm.Create` past `CanTransfer` is a run from the state its caller's nonce is raised in, the state it was called
in last. A new contract is made over an address whose nonce is zero, so not over the caller's; a new contract's nonce
is 1 under EIP158, and otherwise its state is one the run was in. -/
theorem evmCreate_evmRun (hspec : EvmSpec curve blockNumber run) (caller : Address) (code : List UInt8)
    (gas value : Nat) (address : Address) (s : StateDB) (hcan : value ≤ s.getBalance caller) :
    ∃ trace, (evmCreate curve rules blockNumber run caller code gas value address s).trace = trace ++ [s] ∧
      EvmRun curve blockNumber (s.setNonce caller (s.getNonce caller + 1))
        (evmCreate curve rules blockNumber run caller code gas value address s).state trace := by
  unfold evmCreate
  rw [if_neg (Nat.not_lt.mpr hcan)]
  dsimp only
  split
  · exact ⟨[], rfl, EvmRun.start⟩
  · rename_i hcoll
    set s₁ := s.setNonce caller (s.getNonce caller + 1)
    have hnonce : s₁.getNonce address = 0 := not_not.mp hcoll
    have hne : address ≠ caller := by
      rintro rfl
      simp [s₁, setNonce] at hnonce
    have h₂ : EvmRun curve blockNumber s₁ (s₁.createAccount address) [s₁] :=
      EvmRun.start.step (.createAccount s₁ address hnonce)
    -- the new contract's nonce is 1 under EIP158: a raise of its zero nonce
    have h₃ : EvmRun curve blockNumber s₁ (if rules.isEIP158 then (s₁.createAccount address).setNonce address 1
        else s₁.createAccount address) [s₁.createAccount address, s₁] := by
      split
      · have hzero : (s₁.createAccount address).getNonce address + 1 = 1 := by simp [createAccount, Account.empty]
        have h := h₂.step (.setNonce (s₁.createAccount address) address)
        rwa [hzero] at h
      · exact h₂.revert (List.mem_cons_self ..)
    -- the caller's balance is still the one `CanTransfer` checked
    have hbal : value ≤ (if rules.isEIP158 then (s₁.createAccount address).setNonce address 1
        else s₁.createAccount address).getBalance caller := by
      split <;> simpa [s₁, setNonce, createAccount, hne.symm] using hcan
    have h₅ := ((h₃.step (.subBalance _ caller value hbal)).step (.addBalance _ address value)).trans
      (hspec.evmRun caller address code gas value _)
    -- the run's state, or its revert to the snapshot taken at `s₁`
    refine iteInduction
      (motive := fun r : RunResult => ∃ trace, r.trace = trace ++ [s] ∧ EvmRun curve blockNumber s₁ r.state trace)
      (fun _ => ⟨_, by simp, h₅.revertToSnapshot⟩) (fun _ => ⟨_, by simp, h₅⟩)

end Evm

/-! ## The steps of `TransitionDb` -/

section Transition

variable {curve : PowerCurve} {rules : ChainRules} {blockNumber : Nat} {run : Interpreter}
  {createAddress : Address → Nat → Address}

/-- A guard written as a division against the running total fails exactly when the sum leaves uint64. -/
theorem sub_div_lt_iff {gas k n : Nat} (hk : 0 < k) (hgas : gas ≤ MaxUint64) :
    (MaxUint64 - gas) / k < n ↔ MaxUint64 < gas + k * n := by
  rw [Nat.div_lt_iff_lt_mul hk, Nat.mul_comm n k]
  omega

/-- The intrinsic gas is at least `TxGas`: the base is `TxGas` or more, and the data only adds to it. -/
theorem intrinsicGas_ge {data : List UInt8} {contractCreation homestead : Bool} {gas : Nat}
    (h : intrinsicGas data contractCreation homestead = .ok gas) : TxGas ≤ gas := by
  have hbase : TxGas ≤ if contractCreation ∧ homestead then TxGasContractCreation else TxGas := by
    split <;> decide
  unfold intrinsicGas at h
  dsimp only at h
  generalize (if contractCreation ∧ homestead then TxGasContractCreation else TxGas) = base at h hbase
  -- the two checks that the sum stays within uint64 fail with an error
  split_ifs at h <;> cases h
  · omega
  · exact hbase

theorem buyGas_eq_ok {msg : Message} {gp gp' : Nat} {s s' : StateDB}
    (h : buyGas curve blockNumber msg gp s = .ok (gp', s')) :
    (msg.gas * msg.gasPrice : Int) ≤ s.getPower curve msg.sender blockNumber ∧ msg.gas ≤ gp ∧ gp' = gp - msg.gas ∧
      s' = s.subPower curve msg.sender (msg.gas * msg.gasPrice) blockNumber := by
  unfold buyGas at h
  dsimp only at h
  split at h
  · cases h
  · rename_i hpower
    split at h
    · cases h
    · rename_i hgp
      cases h
      exact ⟨Int.not_lt.mp hpower, Nat.le_of_not_lt hgp, rfl, rfl⟩

/-- What `preCheck` lets through is what `buyGas` returns. -/
theorem buyGas_of_preCheck {msg : Message} {gp : Nat} {s : StateDB} {x : Nat × StateDB}
    (h : preCheck curve blockNumber msg gp s = .ok x) : buyGas curve blockNumber msg gp s = .ok x := by
  unfold preCheck at h
  split at h
  · dsimp only at h
    split at h
    · cases h
    · split at h
      · cases h
      · exact h
  · exact h

theorem refundGas_eq_ok {msg : Message} {refundCounter initialGas gas gp gas' gp' : Nat} {s s' : StateDB}
    (h : refundGas msg refundCounter initialGas gas gp s = .ok (gas', gp', s')) :
    gas' = gas + min ((initialGas - gas) / 2) refundCounter ∧ gp' = gp + gas' ∧
      s' = s.addPower msg.sender (gas' * msg.gasPrice) := by
  unfold refundGas at h
  dsimp only at h
  split at h
  · cases h
  · cases h
    exact ⟨rfl, rfl, rfl⟩

/-- The gas given back, what the call left and a refund of at most half the gas used, is at most the gas bought. -/
theorem refund_le_gas {gas leftOverGas : Nat} (refundCounter : Nat) (h : leftOverGas ≤ gas) :
    leftOverGas + min ((gas - leftOverGas) / 2) refundCounter ≤ gas := by
  omega

/-- A transition that returns no error bought the gas, paid the intrinsic gas, made a call or a creation that did not
fail for the balance, and refunded. -/
theorem transitionDb_eq_ok {refundCounter : Nat} {msg : Message} {gp : Nat} {s : StateDB} {r : TransitionResult}
    (h : transitionDb curve rules blockNumber run createAddress refundCounter msg gp s = .ok r) :
    ∃ gp₁ s₁ igas gas, preCheck curve blockNumber msg gp s = .ok (gp₁, s₁) ∧
      intrinsicGas msg.data msg.recipient.isNone rules.isHomestead = .ok igas ∧ igas ≤ msg.gas ∧
      r.call = messageCall curve rules blockNumber run createAddress msg (msg.gas - igas) s₁ ∧
      r.call.err ≠ some .insufficientBalance ∧
      refundGas msg refundCounter msg.gas r.call.leftOverGas gp₁ r.call.state = .ok (gas, r.gp, r.state) ∧
      r.usedGas = msg.gas - gas := by
  unfold transitionDb at h
  split at h
  · cases h
  · rename_i gp₁ s₁ hpre
    split at h
    · cases h
    · rename_i igas higas
      split at h
      · cases h
      · rename_i hgas
        dsimp only at h
        split at h
        · cases h
        · rename_i herr
          split at h
          · cases h
          · rename_i gas gp₂ s₂ hrefund
            cases h
            exact ⟨gp₁, s₁, igas, gas, hpre, higas, Nat.le_of_not_lt hgas, rfl, herr, hrefund, rfl⟩

theorem messageCall_leftOverGas_le (hspec : EvmSpec curve blockNumber run) (msg : Message) (gas : Nat)
    (s : StateDB) : (messageCall curve rules blockNumber run createAddress msg gas s).leftOverGas ≤ gas := by
  unfold messageCall
  split
  · exact evmCreate_leftOverGas_le hspec ..
  · exact evmCall_leftOverGas_le hspec ..

/-- The sender's power, brought up to the block when its gas is bought, is as it was after the call or the creation,
while its balance has power in every state the call passed through: each change of its balance finds its power up to
date. -/
theorem messageCall_settled (hspec : EvmSpec curve blockNumber run) {msg : Message} {gas : Nat} {s : StateDB}
    {P : Int} (hp : (s.accounts msg.sender).power = P) (hblock : (s.accounts msg.sender).blockNumber = blockNumber)
    (herr : (messageCall curve rules blockNumber run createAddress msg gas s).err ≠ some .insufficientBalance)
    (hbal : ∀ v ∈ (messageCall curve rules blockNumber run createAddress msg gas s).state ::
      (messageCall curve rules blockNumber run createAddress msg gas s).trace, minPowerBalance ≤ v.getBalance msg.sender) :
    Settled msg.sender P blockNumber (messageCall curve rules blockNumber run createAddress msg gas s).state := by
  -- the sender's nonce is raised first, by the transition or by `evm.Create`
  have hstart : Settled msg.sender P blockNumber (s.setNonce msg.sender (s.getNonce msg.sender + 1)) :=
    ⟨by simp [setNonce, hp], by simp [setNonce, hblock], by simp [setNonce]⟩
  cases hr : msg.recipient with
  | none =>
    simp only [messageCall, hr] at herr hbal ⊢
    have hcan : msg.value ≤ s.getBalance msg.sender := by
      by_contra hlt
      apply herr
      unfold evmCreate
      rw [if_pos (Nat.lt_of_not_le hlt)]
    obtain ⟨trace, htrace, hrun⟩ := @evmCreate_evmRun _ rules _ _ hspec msg.sender msg.data gas msg.value
      (createAddress msg.sender (s.getNonce msg.sender)) s hcan
    rw [htrace] at hbal
    exact hstart.evmRun hrun (fun v hv => hbal v (((List.sublist_append_left trace [s]).cons_cons _).subset hv)) _
      (List.mem_cons_self ..)
  | some recipient =>
    simp only [messageCall, hr] at hbal ⊢
    exact hstart.evmRun (evmCall_evmRun hspec ..) hbal _ (List.mem_cons_self ..)

end Transition

end Etherzero.Core
