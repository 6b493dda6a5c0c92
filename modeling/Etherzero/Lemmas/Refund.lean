import Mathlib
import Etherzero.Lemmas.StateView
import Etherzero.Vm.Sstore

/-!
# The refund counter covers every cleared slot

A slot is cleared when its committed value is not zero and its current value is: net metering (EIP-1283) has
refunded `NetSstoreClearRefund` for it, and takes that refund back when the slot is written again, the one
`SubRefund` of `gasSStore`. `RefundInv` says the counter holds that refund for each cleared slot, so that the
`SubRefund` never goes below zero. What a write changes in the cleared slots is its slot's `slotDebt`, and each case
of `gasSStore` refunds at least the change (`gasSStore_refund`); the rules before Constantinople refund a cleared slot
`SstoreRefundGas`, the same amount. The other changes of a frame clear no slot, and a frame that fails is reverted to
a state that looks like the one before it.
-/

namespace Etherzero.State

/-- The refund a slot holds in the counter: `NetSstoreClearRefund` when its committed value is not zero and its
current value is. -/
def slotDebt (original current : Hash) : Nat :=
  if original ≠ 0 ∧ current = 0 then NetSstoreClearRefund else 0

theorem slotDebt_le (original current : Hash) : slotDebt original current ≤ NetSstoreClearRefund := by
  unfold slotDebt
  split <;> omega

theorem slotDebt_of_ne_zero (original : Hash) {current : Hash} (h : current ≠ 0) : slotDebt original current = 0 := by
  unfold slotDebt
  rw [if_neg fun hc => h hc.2]

@[simp] theorem slotDebt_zero_left (current : Hash) : slotDebt 0 current = 0 := by
  simp [slotDebt]

theorem slotDebt_zero_right {original : Hash} (h : original ≠ 0) : slotDebt original 0 = NetSstoreClearRefund := by
  unfold slotDebt
  rw [if_pos ⟨h, rfl⟩]

/-- The debt is the refund for one slot, counted when the slot is cleared. -/
theorem slotDebt_eq (original current : Hash) :
    slotDebt original current = NetSstoreClearRefund * if original ≠ 0 ∧ current = 0 then 1 else 0 := by
  unfold slotDebt
  split <;> rfl

/-- A write that clears no slot adds no debt. -/
theorem slotDebt_mono (original : Hash) {current value : Hash} (h : value = 0 → current = 0) :
    slotDebt original value ≤ slotDebt original current := by
  by_cases hv : value = 0
  · rw [hv, h hv]
  · rw [slotDebt_of_ne_zero original hv]
    exact Nat.zero_le _

/-- The refund the rules before Constantinople give for clearing a slot is the one net metering gives. -/
theorem sstoreRefundGas_eq : SstoreRefundGas = NetSstoreClearRefund := rfl

namespace StateDB

/-- The cleared slots: committed value not zero, current value zero. -/
def clearedSet (s : StateDB) : Set (Address × Hash) :=
  {x | s.getCommittedState x.1 x.2 ≠ 0 ∧ s.getState x.1 x.2 = 0}

/-- The refund counter holds `NetSstoreClearRefund` for each cleared slot. -/
structure RefundInv (s : StateDB) : Prop where
  finite : s.clearedSet.Finite
  bound : NetSstoreClearRefund * s.clearedSet.ncard ≤ s.refund

/-! ## Reading storage after a change -/

theorem getState_setStateObject (s : StateDB) (a b : Address) (o : StateObject) (k : Hash) :
    (s.setStateObject a o).getState b k = if b = a then o.getState k else s.getState b k := by
  rw [getState_eq, getState_eq, getStateObject_setStateObject]
  split_ifs <;> rfl

theorem getCommittedState_setStateObject (s : StateDB) (a b : Address) (o : StateObject) (k : Hash) :
    (s.setStateObject a o).getCommittedState b k = if b = a then o.getCommittedState k else s.getCommittedState b k := by
  rw [getCommittedState_eq, getCommittedState_eq, getStateObject_setStateObject]
  split_ifs <;> rfl

/-- A created object holds an empty storage. -/
theorem getState_createObject (s : StateDB) (a b : Address) (k : Hash) :
    (s.createObject a).2.getState b k = if b = a then 0 else s.getState b k := by
  unfold createObject
  split <;> exact getState_setStateObject _ a b _ k

theorem getCommittedState_createObject (s : StateDB) (a b : Address) (k : Hash) :
    (s.createObject a).2.getCommittedState b k = if b = a then 0 else s.getCommittedState b k := by
  unfold createObject
  split <;> exact getCommittedState_setStateObject _ a b _ k

theorem getState_of_getStateObject_none {s : StateDB} {a : Address} (h : s.getStateObject a = none) (k : Hash) :
    s.getState a k = 0 := by
  simp [getState, h]

theorem getCommittedState_of_getStateObject_none {s : StateDB} {a : Address} (h : s.getStateObject a = none)
    (k : Hash) : s.getCommittedState a k = 0 := by
  simp [getCommittedState, h]

/-- The empty object `GetOrNewStateObject` creates reads as the account that did not exist. -/
theorem getState_getOrNewStateObject (s : StateDB) (a b : Address) (k : Hash) :
    (s.getOrNewStateObject a).2.getState b k = s.getState b k := by
  unfold getOrNewStateObject
  split
  · rfl
  · rename_i hnone
    rw [getState_createObject]
    split_ifs with hb
    · rw [hb, getState_of_getStateObject_none hnone]
    · rfl

theorem getCommittedState_getOrNewStateObject (s : StateDB) (a b : Address) (k : Hash) :
    (s.getOrNewStateObject a).2.getCommittedState b k = s.getCommittedState b k := by
  unfold getOrNewStateObject
  split
  · rfl
  · rename_i hnone
    rw [getCommittedState_createObject]
    split_ifs with hb
    · rw [hb, getCommittedState_of_getStateObject_none hnone]
    · rfl

/-- The object `GetOrNewStateObject` returns reads as the account. -/
theorem getState_getOrNewStateObject_fst (s : StateDB) (a : Address) (k : Hash) :
    (s.getOrNewStateObject a).1.getState k = s.getState a k := by
  rw [← getState_getOrNewStateObject s a a k, getState_eq, getStateObject_getOrNewStateObject]
  rfl

theorem getState_setState (s : StateDB) (a : Address) (k v : Hash) (b : Address) (k' : Hash) :
    (s.setState a k v).getState b k' = if b = a ∧ k' = k then v else s.getState b k' := by
  unfold setState
  dsimp only
  split
  · -- the value is already there: nothing is written
    rename_i hprev
    rw [getState_getOrNewStateObject]
    split_ifs with h
    · obtain ⟨rfl, rfl⟩ := h
      rw [← hprev, getState_getOrNewStateObject_fst]
    · rfl
  · rw [getState_setStateObject, StateObject.getState_setState]
    split_ifs with hb hbk hbk
    · rw [hbk.2, Function.update_self]
    · subst hb
      rw [Function.update_of_ne fun hk => hbk ⟨rfl, hk⟩, getState_getOrNewStateObject_fst]
    · exact absurd hbk.1 hb
    · exact getState_getOrNewStateObject s a b k'

theorem getCommittedState_setState (s : StateDB) (a : Address) (k v : Hash) (b : Address) (k' : Hash) :
    (s.setState a k v).getCommittedState b k' = s.getCommittedState b k' := by
  unfold setState
  dsimp only
  split
  · exact getCommittedState_getOrNewStateObject s a b k'
  · rw [getCommittedState_setStateObject]
    split_ifs with hb
    · subst hb
      rw [← getCommittedState_getOrNewStateObject s b b k', getCommittedState_eq, getStateObject_getOrNewStateObject]
      rfl
    · exact getCommittedState_getOrNewStateObject s a b k'

theorem getState_suicide (s : StateDB) (a b : Address) (k : Hash) : (s.suicide a).2.getState b k = s.getState b k := by
  unfold suicide
  split
  · rfl
  · rename_i obj hobj
    rw [getState_setStateObject]
    split_ifs with hb
    · rw [hb, getState_eq, hobj]
      rfl
    · rfl

theorem getCommittedState_suicide (s : StateDB) (a b : Address) (k : Hash) :
    (s.suicide a).2.getCommittedState b k = s.getCommittedState b k := by
  unfold suicide
  split
  · rfl
  · rename_i obj hobj
    rw [getCommittedState_setStateObject]
    split_ifs with hb
    · rw [hb, getCommittedState_eq, hobj]
      rfl
    · rfl

@[simp] theorem refund_addRefund (s : StateDB) (gas : Nat) : (s.addRefund gas).refund = s.refund + gas := rfl

theorem refund_createObject (s : StateDB) (a : Address) : (s.createObject a).2.refund = s.refund := by
  unfold createObject
  split <;> rfl

theorem refund_getOrNewStateObject (s : StateDB) (a : Address) : (s.getOrNewStateObject a).2.refund = s.refund := by
  unfold getOrNewStateObject
  split
  · rfl
  · exact refund_createObject s a

theorem refund_setState (s : StateDB) (a : Address) (k v : Hash) : (s.setState a k v).refund = s.refund := by
  unfold setState
  dsimp only
  split
  · exact refund_getOrNewStateObject s a
  · exact refund_getOrNewStateObject s a

theorem refund_suicide (s : StateDB) (a : Address) : (s.suicide a).2.refund = s.refund := by
  unfold suicide
  split <;> rfl

/-! ## The cleared slots -/

theorem clearedSet_congr {s t : StateDB} (hg : ∀ a k, t.getState a k = s.getState a k)
    (hc : ∀ a k, t.getCommittedState a k = s.getCommittedState a k) : t.clearedSet = s.clearedSet := by
  ext x
  simp only [clearedSet, Set.mem_ofPred_eq, hg, hc]

theorem clearedSet_of_view {s t : StateDB} (h : t.view = s.view) : t.clearedSet = s.clearedSet :=
  clearedSet_congr (getState_of_view h) (getCommittedState_of_view h)

/-- A created account holds no cleared slot. -/
theorem clearedSet_createAccount_subset (s : StateDB) (a : Address) : (s.createAccount a).clearedSet ⊆ s.clearedSet := by
  rintro ⟨b, k⟩ ⟨hc, hg⟩
  simp only [createAccount, getCommittedState_createObject, getState_createObject] at hc hg
  split_ifs at hc hg with hb
  · exact absurd rfl hc
  · exact ⟨hc, hg⟩

/-- Writing a slot changes the cleared slots at that slot alone. -/
theorem mem_clearedSet_setState (s : StateDB) (a : Address) (k v : Hash) (x : Address × Hash) :
    x ∈ (s.setState a k v).clearedSet ↔
      if x = (a, k) then s.getCommittedState a k ≠ 0 ∧ v = 0 else x ∈ s.clearedSet := by
  obtain ⟨b, k'⟩ := x
  simp only [clearedSet, Set.mem_ofPred_eq, getState_setState, getCommittedState_setState, Prod.mk.injEq]
  split_ifs with h
  · obtain ⟨rfl, rfl⟩ := h
    exact Iff.rfl
  · exact Iff.rfl

/-- The refund the cleared slots ask for changes, at a write, by what the written slot asks for. -/
theorem debt_setState {s : StateDB} (hfin : s.clearedSet.Finite) (a : Address) (k v : Hash) :
    (s.setState a k v).clearedSet.Finite ∧
      NetSstoreClearRefund * (s.setState a k v).clearedSet.ncard + slotDebt (s.getCommittedState a k) (s.getState a k) =
        NetSstoreClearRefund * s.clearedSet.ncard + slotDebt (s.getCommittedState a k) v := by
  have hoff : ∀ y, y ≠ (a, k) → (y ∈ (s.setState a k v).clearedSet ↔ y ∈ s.clearedSet) := fun y hy => by
    rw [mem_clearedSet_setState, if_neg hy]
  have hmem : (a, k) ∈ (s.setState a k v).clearedSet ↔ s.getCommittedState a k ≠ 0 ∧ v = 0 := by
    rw [mem_clearedSet_setState, if_pos rfl]
  have hfin' : (s.setState a k v).clearedSet.Finite := (hfin.insert (a, k)).subset fun y hy => by
    by_cases hya : y = (a, k)
    · exact Or.inl hya
    · exact Or.inr ((hoff y hya).mp hy)
  -- off the written slot the two sets agree, so each count is the common part and the slot itself
  have hdiff : (s.setState a k v).clearedSet \ {(a, k)} = s.clearedSet \ {(a, k)} := by
    ext y
    simp only [Set.mem_sdiff, Set.mem_singleton_iff]
    exact ⟨fun ⟨hy, hne⟩ => ⟨(hoff y hne).mp hy, hne⟩, fun ⟨hy, hne⟩ => ⟨(hoff y hne).mpr hy, hne⟩⟩
  have hold : s.clearedSet.ncard + 0 = (s.clearedSet \ {(a, k)}).ncard +
      if s.getCommittedState a k ≠ 0 ∧ s.getState a k = 0 then 1 else 0 := by
    split_ifs with h
    · exact (Set.ncard_sdiff_singleton_add_one (show (a, k) ∈ s.clearedSet from h) hfin).symm
    · rw [Set.sdiff_singleton_eq_self (show (a, k) ∉ s.clearedSet from h)]
  have hnew : (s.setState a k v).clearedSet.ncard + 0 = (s.clearedSet \ {(a, k)}).ncard +
      if s.getCommittedState a k ≠ 0 ∧ v = 0 then 1 else 0 := by
    rw [← hdiff]
    split_ifs with h
    · exact (Set.ncard_sdiff_singleton_add_one (hmem.mpr h) hfin').symm
    · rw [Set.sdiff_singleton_eq_self (mt hmem.mp h)]
  have hcount : (s.setState a k v).clearedSet.ncard +
      (if s.getCommittedState a k ≠ 0 ∧ s.getState a k = 0 then 1 else 0) =
      s.clearedSet.ncard + if s.getCommittedState a k ≠ 0 ∧ v = 0 then 1 else 0 := by
    omega
  refine ⟨hfin', ?_⟩
  rw [slotDebt_eq, slotDebt_eq, ← Nat.mul_add, ← Nat.mul_add, hcount]

theorem RefundInv.mono {s t : StateDB} (h : s.RefundInv) (hsub : t.clearedSet ⊆ s.clearedSet)
    (hr : s.refund ≤ t.refund) : t.RefundInv :=
  ⟨h.finite.subset hsub,
    calc NetSstoreClearRefund * t.clearedSet.ncard
        ≤ NetSstoreClearRefund * s.clearedSet.ncard := Nat.mul_le_mul_left _ (Set.ncard_le_ncard hsub h.finite)
      _ ≤ s.refund := h.bound
      _ ≤ t.refund := hr⟩

theorem RefundInv.of_view {s t : StateDB} (h : s.RefundInv) (hv : t.view = s.view) : t.RefundInv :=
  h.mono (clearedSet_of_view hv).subset (le_of_eq (refund_of_view hv).symm)

/-- Under the invariant the refund of a cleared slot is in the counter. -/
theorem RefundInv.clearRefund_le {s : StateDB} (h : s.RefundInv) {x : Address × Hash} (hx : x ∈ s.clearedSet) :
    NetSstoreClearRefund ≤ s.refund := by
  have hpos : 0 < s.clearedSet.ncard := (Set.ncard_pos h.finite).mpr ⟨x, hx⟩
  calc NetSstoreClearRefund = NetSstoreClearRefund * 1 := (Nat.mul_one _).symm
    _ ≤ NetSstoreClearRefund * s.clearedSet.ncard := Nat.mul_le_mul_left _ hpos
    _ ≤ s.refund := h.bound

/-! ## Changes of the refund counter alone -/

/-- `t` differs from `s` in the refund counter and the journal alone, by journalled changes. -/
structure RefundStep (s t : StateDB) : Prop where
  journalled : Journalled s t
  getStateObject : t.getStateObject = s.getStateObject

theorem RefundStep.refl (s : StateDB) : RefundStep s s := ⟨Journalled.refl s, rfl⟩

theorem RefundStep.trans {s t u : StateDB} (h₁ : RefundStep s t) (h₂ : RefundStep t u) : RefundStep s u :=
  ⟨h₁.journalled.trans h₂.journalled, h₂.getStateObject.trans h₁.getStateObject⟩

theorem RefundStep.getState {s t : StateDB} (h : RefundStep s t) (a : Address) (k : Hash) :
    t.getState a k = s.getState a k := by
  rw [getState_eq, getState_eq, h.getStateObject]

theorem RefundStep.getCommittedState {s t : StateDB} (h : RefundStep s t) (a : Address) (k : Hash) :
    t.getCommittedState a k = s.getCommittedState a k := by
  rw [getCommittedState_eq, getCommittedState_eq, h.getStateObject]

theorem RefundStep.clearedSet {s t : StateDB} (h : RefundStep s t) : t.clearedSet = s.clearedSet :=
  clearedSet_congr h.getState h.getCommittedState

theorem refundStep_addRefund (s : StateDB) (gas : Nat) : RefundStep s (s.addRefund gas) :=
  ⟨journalled_addRefund s gas, rfl⟩

theorem refundStep_subRefund {s t : StateDB} {gas : Nat} (h : s.subRefund gas = .ok t) :
    RefundStep s t ∧ t.refund + gas = s.refund := by
  obtain ⟨hle, rfl⟩ := subRefund_eq_ok h
  exact ⟨⟨journalled_subRefund h, rfl⟩, Nat.sub_add_cancel hle⟩

theorem refundStep_resetRefund (s : StateDB) (original value : Hash) :
    RefundStep s (resetRefund s original value) ∧ s.refund ≤ (resetRefund s original value).refund := by
  unfold resetRefund
  split_ifs
  · exact ⟨refundStep_addRefund s _, Nat.le_add_right _ _⟩
  · exact ⟨refundStep_addRefund s _, Nat.le_add_right _ _⟩
  · exact ⟨RefundStep.refl s, le_refl _⟩

/-- The refund `SELFDESTRUCT` adds for an account not yet suicided. -/
theorem refundStep_suicideRefund (s : StateDB) (addr : Address) :
    RefundStep s (if s.hasSuicided addr then s else s.addRefund SuicideRefundGas) ∧
      s.refund ≤ (if s.hasSuicided addr then s else s.addRefund SuicideRefundGas).refund := by
  split
  · exact ⟨RefundStep.refl s, le_refl _⟩
  · exact ⟨refundStep_addRefund s _, Nat.le_add_right _ _⟩

/-! ## `gasSStore` -/

/-- Each case of `gasSStore` changes the refund counter alone, by at least the change of the slot's debt that the
write will make: it refunds a slot it clears and takes back only the refund of a slot it un-clears. -/
theorem gasSStore_refund {isConstantinople : Bool} {s t : StateDB} {addr : Address} {key value : Hash} {cost : Nat}
    (h : gasSStore isConstantinople s addr key value = .ok (cost, t)) :
    RefundStep s t ∧
      s.refund + slotDebt (s.getCommittedState addr key) value ≤
        t.refund + slotDebt (s.getCommittedState addr key) (s.getState addr key) := by
  unfold gasSStore at h
  dsimp only at h
  split at h
  · -- before Constantinople: the current value alone decides
    split at h
    next hset =>
      cases h
      exact ⟨RefundStep.refl s, by rw [slotDebt_of_ne_zero _ hset.2]; omega⟩
    next =>
      split at h
      next hclear =>
        cases h
        have := slotDebt_le (s.getCommittedState addr key) value
        exact ⟨refundStep_addRefund s _, by rw [refund_addRefund, sstoreRefundGas_eq]; omega⟩
      next hclear =>
        cases h
        have hmono := slotDebt_mono (s.getCommittedState addr key) fun hv => by
          by_contra hc
          exact hclear ⟨hc, hv⟩
        exact ⟨RefundStep.refl s, by omega⟩
  · split at h
    next hnoop =>
      cases h
      exact ⟨RefundStep.refl s, by rw [hnoop]⟩
    next hnoop =>
      split at h
      next hclean =>
        -- the slot is clean: it holds its committed value
        split at h
        next hzero =>
          cases h
          exact ⟨RefundStep.refl s, by rw [hzero, slotDebt_zero_left, slotDebt_zero_left]⟩
        next hzero =>
          split at h
          next hv =>
            cases h
            have := slotDebt_le (s.getCommittedState addr key) value
            exact ⟨refundStep_addRefund s _, by rw [refund_addRefund]; omega⟩
          next hv =>
            cases h
            exact ⟨RefundStep.refl s, by rw [slotDebt_of_ne_zero _ hv]; omega⟩
      next hclean =>
        -- the slot is dirty
        split at h
        next horig =>
          split at h
          next hcur =>
            -- the cleared slot is written again: its refund is taken back
            split at h
            next s' hsub =>
              cases h
              obtain ⟨hstep, hsubeq⟩ := refundStep_subRefund hsub
              obtain ⟨hstep', hreset⟩ := refundStep_resetRefund s' (s.getCommittedState addr key) value
              have hv : value ≠ 0 := fun hv => hnoop (hcur.trans hv.symm)
              refine ⟨hstep.trans hstep', ?_⟩
              rw [slotDebt_of_ne_zero _ hv, hcur, slotDebt_zero_right horig]
              omega
            next => cases h
          next hcur =>
            split at h
            next hv =>
              cases h
              obtain ⟨hstep', hreset⟩ := refundStep_resetRefund (s.addRefund NetSstoreClearRefund)
                (s.getCommittedState addr key) value
              have := slotDebt_le (s.getCommittedState addr key) value
              refine ⟨(refundStep_addRefund s _).trans hstep', ?_⟩
              rw [refund_addRefund] at hreset
              omega
            next hv =>
              cases h
              obtain ⟨hstep', hreset⟩ := refundStep_resetRefund s (s.getCommittedState addr key) value
              exact ⟨hstep', by rw [slotDebt_of_ne_zero _ hv]; omega⟩
        next horig =>
          cases h
          obtain ⟨hstep', hreset⟩ := refundStep_resetRefund s (s.getCommittedState addr key) value
          have hdebt : slotDebt (s.getCommittedState addr key) value = 0 := by
            rw [not_not.mp horig, slotDebt_zero_left]
          exact ⟨hstep', by omega⟩

/-- `SubRefund` is reached only for a cleared slot, whose refund the invariant keeps in the counter: under the
invariant `gasSStore` does not fail. -/
theorem gasSStore_ok (isConstantinople : Bool) {s : StateDB} (hinv : s.RefundInv) (addr : Address) (key value : Hash) :
    ∃ r, gasSStore isConstantinople s addr key value = .ok r := by
  unfold gasSStore
  dsimp only
  split
  · split
    · exact ⟨_, rfl⟩
    · split <;> exact ⟨_, rfl⟩
  · split
    · exact ⟨_, rfl⟩
    · split
      · split
        · exact ⟨_, rfl⟩
        · split <;> exact ⟨_, rfl⟩
      · split
        · rename_i horig
          split
          · rename_i hcur
            rw [subRefund_of_le (hinv.clearRefund_le (x := (addr, key)) ⟨horig, hcur⟩)]
            exact ⟨_, rfl⟩
          · split <;> exact ⟨_, rfl⟩
        · exact ⟨_, rfl⟩

/-- An `SSTORE` that runs keeps the invariant. -/
theorem RefundInv.sstore {isConstantinople : Bool} {s t : StateDB} {addr : Address} {key value : Hash} {cost : Nat}
    (hinv : s.RefundInv) (h : gasSStore isConstantinople s addr key value = .ok (cost, t)) :
    (t.setState addr key value).RefundInv := by
  obtain ⟨hstep, hrefund⟩ := gasSStore_refund h
  obtain ⟨hfin', hdebt⟩ := debt_setState (hstep.clearedSet ▸ hinv.finite) addr key value
  rw [hstep.getCommittedState, hstep.getState, hstep.clearedSet] at hdebt
  refine ⟨hfin', ?_⟩
  rw [refund_setState]
  have := hinv.bound
  omega

end StateDB

end Etherzero.State
