import Mathlib
import Etherzero.Core.StateTransition

/-!
# What the account changes keep

Two facts about the account changes of `State/Power.lean` and the runs of `EvmRun` built from them. Each change appends
entries that undo it (`Journalled`), so a revert to a snapshot gives back exactly the state the snapshot was taken in:
that is what the revert step of `EvmRun` assumes. And once an account's power is brought up to a block, every later
change at that block leaves its power and block as they are while its balance has power (`Settled`): bringing the
power up to date again finds nothing to add.
-/

namespace Etherzero.Power

open Etherzero.Core

theorem calculatePower_of_le {curve : PowerCurve} {prevBlock newBlock : Nat} {prevPower : Int} {balance : Nat}
    (hb : minPowerBalance ≤ balance) (hblk : newBlock ≤ prevBlock) :
    calculatePower curve prevBlock newBlock prevPower balance = prevPower := by
  unfold calculatePower
  rw [if_neg (Nat.not_lt.mpr hb), if_pos hblk]

/-- At its own block the power is kept, unless the balance has none. -/
theorem calculatePower_same_block (curve : PowerCurve) (blockNumber : Nat) (power : Int) (balance : Nat) :
    calculatePower curve blockNumber blockNumber power balance = if balance < minPowerBalance then 0 else power := by
  unfold calculatePower
  split
  · rfl
  · rw [if_pos (le_refl _)]

/-- Bringing the power up to a block twice is bringing it up once. -/
theorem calculatePower_idem (curve : PowerCurve) (prevBlock blockNumber : Nat) (power : Int) (balance : Nat) :
    calculatePower curve blockNumber blockNumber (calculatePower curve prevBlock blockNumber power balance) balance =
      calculatePower curve prevBlock blockNumber power balance := by
  rw [calculatePower_same_block]
  split
  · rename_i hb
    unfold calculatePower
    rw [if_pos hb]
  · rfl

namespace StateDB

@[simp] theorem accounts_setAccount (s : StateDB) (a : Address) (acct : Account) (b : Address) :
    (s.setAccount a acct).accounts b = if b = a then acct else s.accounts b :=
  Function.update_apply _ _ _ _

@[simp] theorem accounts_append (s : StateDB) (e : JournalEntry) : (s.append e).accounts = s.accounts := rfl

@[simp] theorem getBalance_eq (s : StateDB) (a : Address) : s.getBalance a = (s.accounts a).balance := rfl

@[simp] theorem getNonce_eq (s : StateDB) (a : Address) : s.getNonce a = (s.accounts a).nonce := rfl

/-! ## The journal undoes every change -/

/-- `es` undoes the change from `s` to `t`, for the accounts. -/
abbrev Undoes (es : List JournalEntry) (s t : StateDB) : Prop := Etherzero.Undoes JournalEntry.revert accounts es s t

/-- `t` comes from `s` by changes that the entries appended to `s`'s journal undo. -/
def Journalled (s t : StateDB) : Prop := ∃ es, t.journal = s.journal ++ es ∧ Undoes es s t

theorem Journalled.refl (s : StateDB) : Journalled s s := ⟨[], by simp, Undoes.refl s⟩

theorem Journalled.trans {s t u : StateDB} (h₁ : Journalled s t) (h₂ : Journalled t u) : Journalled s u := by
  obtain ⟨es₁, hj₁, hu₁⟩ := h₁
  obtain ⟨es₂, hj₂, hu₂⟩ := h₂
  exact ⟨es₁ ++ es₂, by rw [hj₂, hj₁, List.append_assoc], hu₁.trans hu₂⟩

/-- A change of one account that appends an entry whose revert puts back what the change replaced. -/
theorem journalled_entry {s : StateDB} {a : Address} {acct : Account} {e : JournalEntry} (g : Account → Account)
    (hrevert : ∀ t, (e.revert t).accounts = Function.update t.accounts a (g (t.accounts a)))
    (hg : g acct = s.accounts a) : Journalled s ((s.append e).setAccount a acct) := by
  refine ⟨[e], rfl, fun t ht => ?_⟩
  have hta : t.accounts a = acct := by rw [ht]; simp
  simp only [undoEntries_cons, undoEntries_nil]
  rw [hrevert, hta, hg, ht]
  simp only [setAccount, accounts_append, Function.update_idem]
  exact Function.update_eq_self a s.accounts

theorem journalled_updatePower (curve : PowerCurve) (s : StateDB) (a : Address) (blockNumber : Nat) :
    Journalled s (s.updatePower curve a blockNumber) :=
  journalled_entry (fun o => { o with power := (s.accounts a).power, blockNumber := (s.accounts a).blockNumber })
    (fun _ => rfl) rfl

theorem journalled_setBalance (curve : PowerCurve) (s : StateDB) (a : Address) (amount blockNumber : Nat) :
    Journalled s (s.setBalance curve a amount blockNumber) :=
  (journalled_updatePower curve s a blockNumber).trans
    (journalled_entry (fun o => { o with balance := ((s.updatePower curve a blockNumber).accounts a).balance })
      (fun _ => rfl) rfl)

theorem journalled_addBalance (curve : PowerCurve) (s : StateDB) (a : Address) (amount blockNumber : Nat) :
    Journalled s (s.addBalance curve a amount blockNumber) := by
  unfold addBalance
  split
  · exact Journalled.refl s
  · exact (journalled_updatePower curve s a blockNumber).trans (journalled_setBalance curve _ a _ blockNumber)

theorem journalled_subBalance (curve : PowerCurve) (s : StateDB) (a : Address) (amount blockNumber : Nat) :
    Journalled s (s.subBalance curve a amount blockNumber) := by
  unfold subBalance
  split
  · exact Journalled.refl s
  · exact journalled_setBalance curve s a _ blockNumber

theorem journalled_setPower (s : StateDB) (a : Address) (amount : Int) : Journalled s (s.setPower a amount) :=
  journalled_entry (fun o => { o with power := (s.accounts a).power }) (fun _ => rfl) rfl

theorem journalled_setNonce (s : StateDB) (a : Address) (nonce : Nat) : Journalled s (s.setNonce a nonce) :=
  journalled_entry (fun o => { o with nonce := (s.accounts a).nonce }) (fun _ => rfl) rfl

theorem journalled_createAccount (s : StateDB) (a : Address) : Journalled s (s.createAccount a) :=
  journalled_entry (fun _ => s.accounts a) (fun _ => rfl) rfl

theorem journalled_suicide (s : StateDB) (a : Address) : Journalled s (s.suicide a) :=
  journalled_entry (fun o => { o with balance := (s.accounts a).balance }) (fun _ => rfl) rfl

/-- `SubPower` of an amount brings the power up to the block first. -/
theorem subPower_accounts_self (curve : PowerCurve) (s : StateDB) (a : Address) {amount : Int} (blockNumber : Nat)
    (h : amount ≠ 0) :
    (s.subPower curve a amount blockNumber).accounts a =
      { s.accounts a with power := s.getPower curve a blockNumber - amount, blockNumber := blockNumber } := by
  simp [subPower, h, updatePower, setPower, getPower]

/-- `AddPower` adds to the stored power, also when the amount is zero and it does nothing. -/
theorem addPower_accounts_self (s : StateDB) (a : Address) (amount : Int) :
    (s.addPower a amount).accounts a = { s.accounts a with power := (s.accounts a).power + amount } := by
  unfold addPower
  split
  · rename_i h
    rw [h, Int.add_zero]
  · simp [setPower]

/-- A revert to the journal length of `s`, after changes its entries undo, gives back `s`. -/
theorem revertToSnapshot_of_journalled {s t : StateDB} (h : Journalled s t) :
    t.revertToSnapshot s.journal.length = s := by
  obtain ⟨es, hj, hu⟩ := h
  have hdrop : t.journal.drop s.journal.length = es := by rw [hj, List.drop_left]
  have htake : t.journal.take s.journal.length = s.journal := by rw [hj, List.take_left]
  have hacc : (undoEntries JournalEntry.revert es t).accounts = s.accounts := hu.view_undo
  unfold revertToSnapshot
  rw [hdrop, htake]
  dsimp only
  rw [hacc]

theorem journalled_of_evmStep {curve : PowerCurve} {blockNumber : Nat} {t u : StateDB}
    (h : EvmStep curve blockNumber t u) : Journalled t u := by
  cases h with
  | subBalance addr amount _ => exact journalled_subBalance curve t addr amount blockNumber
  | addBalance addr amount => exact journalled_addBalance curve t addr amount blockNumber
  | setNonce addr => exact journalled_setNonce t addr _
  | createAccount addr _ => exact journalled_createAccount t addr
  | suicide addr => exact journalled_suicide t addr

/-- Every state of a run comes from its start by changes the journal undoes. -/
theorem journalled_of_evmRun {curve : PowerCurve} {blockNumber : Nat} {s t : StateDB} {seen : List StateDB}
    (h : EvmRun curve blockNumber s t seen) : ∀ v ∈ t :: seen, Journalled s v := by
  induction h with
  | start =>
    intro v hv
    rw [List.mem_singleton.mp hv]
    exact Journalled.refl s
  | step _ hstep ih =>
    intro v hv
    rcases List.mem_cons.mp hv with rfl | hv
    · exact (ih _ (List.mem_cons_self ..)).trans (journalled_of_evmStep hstep)
    · exact ih v hv
  | revert _ hu ih =>
    intro v hv
    rcases List.mem_cons.mp hv with rfl | hv
    · exact ih _ hu
    · exact ih v hv

/-! ## What each change of a balance does to the account -/

section Balance

variable (curve : PowerCurve) (s : StateDB) (a : Address) (blockNumber : Nat)

theorem updatePower_accounts_self :
    (s.updatePower curve a blockNumber).accounts a =
      { s.accounts a with power := s.getPower curve a blockNumber, blockNumber := blockNumber } := by
  simp [updatePower, getPower]

theorem updatePower_accounts_of_ne {b : Address} (h : b ≠ a) :
    (s.updatePower curve a blockNumber).accounts b = s.accounts b := by
  simp [updatePower, h]

theorem setBalance_accounts_self (amount : Nat) :
    (s.setBalance curve a amount blockNumber).accounts a =
      { s.accounts a with balance := amount, power := s.getPower curve a blockNumber, blockNumber := blockNumber } := by
  simp [StateDB.setBalance, updatePower_accounts_self]

theorem setBalance_accounts_of_ne {b : Address} (h : b ≠ a) (amount : Nat) :
    (s.setBalance curve a amount blockNumber).accounts b = s.accounts b := by
  simp [StateDB.setBalance, h, updatePower_accounts_of_ne]

/-- `SubBalance` of an amount stores the power at the block, from the balance before. -/
theorem subBalance_accounts_self {amount : Nat} (h : amount ≠ 0) :
    (s.subBalance curve a amount blockNumber).accounts a =
      { s.accounts a with balance := (s.accounts a).balance - amount,
                          power := s.getPower curve a blockNumber, blockNumber := blockNumber } := by
  rw [subBalance, if_neg h, setBalance_accounts_self]

theorem subBalance_accounts_of_ne {b : Address} (h : b ≠ a) (amount : Nat) :
    (s.subBalance curve a amount blockNumber).accounts b = s.accounts b := by
  unfold subBalance
  split
  · rfl
  · exact setBalance_accounts_of_ne curve s a blockNumber h _

/-- `AddBalance` of an amount brings the power up to the block twice, at the balance before: the second time keeps
what the first stored. -/
theorem addBalance_accounts_self {amount : Nat} (h : amount ≠ 0) :
    (s.addBalance curve a amount blockNumber).accounts a =
      { s.accounts a with balance := (s.accounts a).balance + amount,
                          power := s.getPower curve a blockNumber, blockNumber := blockNumber } := by
  rw [addBalance, if_neg h, setBalance_accounts_self, updatePower_accounts_self]
  simp only [getPower, updatePower_accounts_self, calculatePower_idem]

theorem addBalance_accounts_of_ne {b : Address} (h : b ≠ a) (amount : Nat) :
    (s.addBalance curve a amount blockNumber).accounts b = s.accounts b := by
  unfold addBalance
  split
  · rfl
  · rw [setBalance_accounts_of_ne curve _ a blockNumber h, updatePower_accounts_of_ne curve s a blockNumber h]

end Balance

/-! ## A power paid up to the block stays as it is -/

/-- The account `a` has power `P` brought up to `blockNumber`, and a nonce that is not zero. -/
structure Settled (a : Address) (P : Int) (blockNumber : Nat) (s : StateDB) : Prop where
  power : (s.accounts a).power = P
  block : (s.accounts a).blockNumber = blockNumber
  nonce : 0 < (s.accounts a).nonce

/-- `Settled` reads the power, the block and the nonce: a change that keeps the first two and does not lower the nonce
keeps it. -/
theorem Settled.of_fields {a : Address} {P : Int} {blockNumber : Nat} {s t : StateDB}
    (h : Settled a P blockNumber s) (hp : (t.accounts a).power = (s.accounts a).power)
    (hb : (t.accounts a).blockNumber = (s.accounts a).blockNumber)
    (hn : (s.accounts a).nonce ≤ (t.accounts a).nonce) : Settled a P blockNumber t :=
  ⟨hp.trans h.power, hb.trans h.block, lt_of_lt_of_le h.nonce hn⟩

section Settled

variable {curve : PowerCurve} {a : Address} {P : Int} {blockNumber : Nat}

/-- Bringing the power up to the block it is at, with a balance that has power, changes nothing. -/
theorem Settled.updatePower_accounts {s : StateDB} (h : Settled a P blockNumber s)
    (hb : minPowerBalance ≤ s.getBalance a) (c : Address) :
    (s.updatePower curve c blockNumber).accounts a = s.accounts a := by
  simp only [updatePower, accounts_setAccount, accounts_append]
  split
  · rename_i hc
    subst hc
    have hb' : minPowerBalance ≤ (s.accounts _).balance := hb
    rw [calculatePower_of_le hb' (le_of_eq h.block.symm), ← h.block]
  · rfl

theorem Settled.setBalance {s : StateDB} (h : Settled a P blockNumber s) (hb : minPowerBalance ≤ s.getBalance a)
    (c : Address) (amount : Nat) : Settled a P blockNumber (s.setBalance curve c amount blockNumber) := by
  have hu : (s.updatePower curve c blockNumber).accounts a = s.accounts a := h.updatePower_accounts hb c
  refine h.of_fields ?_ ?_ ?_ <;>
    · simp only [StateDB.setBalance, accounts_setAccount, accounts_append]
      split <;> simp_all

theorem Settled.addBalance {s : StateDB} (h : Settled a P blockNumber s) (hb : minPowerBalance ≤ s.getBalance a)
    (c : Address) (amount : Nat) : Settled a P blockNumber (s.addBalance curve c amount blockNumber) := by
  unfold StateDB.addBalance
  split
  · exact h
  · -- the first update changes nothing at `a`, so the balance `SetBalance` reads is still the one with power
    have hu : (s.updatePower curve c blockNumber).accounts a = s.accounts a := h.updatePower_accounts hb c
    have h₁ : Settled a P blockNumber (s.updatePower curve c blockNumber) := h.of_fields (by rw [hu]) (by rw [hu])
      (by rw [hu])
    exact h₁.setBalance (by rw [getBalance_eq, hu]; exact hb) c _

theorem Settled.subBalance {s : StateDB} (h : Settled a P blockNumber s) (hb : minPowerBalance ≤ s.getBalance a)
    (c : Address) (amount : Nat) : Settled a P blockNumber (s.subBalance curve c amount blockNumber) := by
  unfold StateDB.subBalance
  split
  · exact h
  · exact h.setBalance hb c _

/-- A step of the interpreter keeps the account settled while its balance has power; a new contract is never made
over it, since its nonce is not zero. -/
theorem Settled.evmStep {s t : StateDB} (h : Settled a P blockNumber s) (hb : minPowerBalance ≤ s.getBalance a)
    (hstep : EvmStep curve blockNumber s t) : Settled a P blockNumber t := by
  cases hstep with
  | subBalance c amount _ => exact h.subBalance hb c amount
  | addBalance c amount => exact h.addBalance hb c amount
  | setNonce c =>
    refine h.of_fields ?_ ?_ ?_ <;>
      · simp only [StateDB.setNonce, accounts_setAccount, accounts_append]
        split <;> simp_all
  | createAccount c hc =>
    have hne : a ≠ c := by
      rintro rfl
      exact absurd hc (Nat.pos_iff_ne_zero.mp h.nonce)
    refine h.of_fields ?_ ?_ ?_ <;> simp [StateDB.createAccount, hne]
  | suicide c =>
    refine h.of_fields ?_ ?_ ?_ <;>
      · simp only [StateDB.suicide, accounts_setAccount, accounts_append]
        split <;> simp_all

/-- Every state of a run from a settled state is settled, while the balance has power in each. -/
theorem Settled.evmRun {s t : StateDB} {seen : List StateDB} (hrun : EvmRun curve blockNumber s t seen)
    (h : Settled a P blockNumber s) (hb : ∀ v ∈ t :: seen, minPowerBalance ≤ v.getBalance a) :
    ∀ v ∈ t :: seen, Settled a P blockNumber v := by
  induction hrun with
  | start =>
    intro v hv
    rw [List.mem_singleton.mp hv]
    exact h
  | step _ hstep ih =>
    have ih' := ih fun v hv => hb v (List.mem_cons_of_mem _ hv)
    intro v hv
    rcases List.mem_cons.mp hv with rfl | hv
    · exact (ih' _ (List.mem_cons_self ..)).evmStep (hb _ (List.mem_cons_of_mem _ (List.mem_cons_self ..))) hstep
    · exact ih' v hv
  | revert _ hu ih =>
    have ih' := ih fun v hv => hb v (List.mem_cons_of_mem _ hv)
    intro v hv
    rcases List.mem_cons.mp hv with rfl | hv
    · exact ih' _ hu
    · exact ih' v hv

end Settled

end StateDB

end Etherzero.Power
