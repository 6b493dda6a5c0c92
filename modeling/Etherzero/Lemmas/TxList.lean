import Mathlib
import Etherzero.Lib.GoMap
import Etherzero.TxPool.TxList

/-!
# The caps of a txList

The caps of a `txList` bound every transaction it holds. `Add` raises them to what it accepts. `Filter` lowers them to
the limits only after removing what is over them. The other operations only remove. So `Filter`'s short cut, which
returns nothing when the caps are within the limits, loses no transaction over a limit.
-/

namespace Etherzero.TxPool

/-- A transaction within caps of cost, gas and value. -/
def Transaction.WithinCaps (tx : Transaction) (costcap : Nat) (gascap : UInt64) (valuecap : Nat) : Prop :=
  tx.cost ≤ costcap ∧ tx.gas ≤ gascap ∧ tx.value ≤ valuecap

/-- The caps of the list bound every transaction in it. -/
def TxList.CapsHold (l : TxList) : Prop :=
  ∀ n tx, l.txs.items.lookup n = some tx → tx.WithinCaps l.costcap l.gascap l.valuecap

/-- The transactions of the map, in the order it lists them. -/
def TxSortedMap.values (m : TxSortedMap) : List Transaction := m.items.entries.map Sigma.snd

namespace TxSortedMap

/-! ## The operations that only remove -/

theorem forwardLoop_subMap (threshold : UInt64) (m : TxSortedMap) (removed : List Transaction) :
    AList.SubMap (forwardLoop threshold m removed).2.items m.items := by
  fun_induction forwardLoop threshold m removed with
  | case1 _ _ _ _ _ _ ih => exact ih.trans (AList.SubMap.erase _ _)
  | case2 => exact AList.SubMap.refl _
  | case3 => exact AList.SubMap.refl _

theorem foldl_capStep_subMap (sorted : List UInt64) :
    ∀ (sizes : List Nat) (acc : List Transaction × AList (fun _ : UInt64 => Transaction)),
      AList.SubMap (sizes.foldl (capStep sorted) acc).2 acc.2
  | [], _ => AList.SubMap.refl _
  | size :: sizes, acc => by
    rw [List.foldl_cons]
    exact (foldl_capStep_subMap sorted sizes _).trans (AList.SubMap.erase _ _)

theorem cap_subMap (m : TxSortedMap) (threshold : Nat) : AList.SubMap (m.cap threshold).2.items m.items := by
  unfold cap
  split
  · exact AList.SubMap.refl _
  · exact foldl_capStep_subMap _ _ ([], m.items)

theorem remove_subMap (m : TxSortedMap) (nonce : UInt64) : AList.SubMap (m.remove nonce).2.items m.items := by
  unfold remove
  split
  · exact AList.SubMap.refl _
  · exact AList.SubMap.erase _ _

theorem readyLoop_subMap (next : UInt64) (m : TxSortedMap) (ready : List Transaction) :
    AList.SubMap (readyLoop next m ready).2.items m.items := by
  fun_induction readyLoop next m ready with
  | case1 _ _ _ _ _ ih => exact ih.trans (AList.SubMap.erase _ _)
  | case2 => exact AList.SubMap.refl _
  | case3 => exact AList.SubMap.refl _

theorem ready_subMap (m : TxSortedMap) (start : UInt64) : AList.SubMap (m.ready start).2.items m.items := by
  unfold ready
  split
  · split
    · exact AList.SubMap.refl _
    · exact readyLoop_subMap _ _ _
  · exact AList.SubMap.refl _

/-! ## Filter -/

theorem filter_fst (order : RangeOrder UInt64 Transaction) (m : TxSortedMap) (f : Transaction → Bool) :
    (m.filter order f).1 = (rangeDelete order f m.items).1 := by
  unfold filter
  dsimp only
  split_ifs <;> rfl

theorem filter_items (order : RangeOrder UInt64 Transaction) (m : TxSortedMap) (f : Transaction → Bool) :
    (m.filter order f).2.items = (rangeDelete order f m.items).2 := by
  unfold filter
  dsimp only
  split_ifs <;> rfl

theorem filter_subMap (order : RangeOrder UInt64 Transaction) (m : TxSortedMap) (f : Transaction → Bool) :
    AList.SubMap (m.filter order f).2.items m.items := by
  rw [filter_items]
  exact rangeDelete_subMap order f m.items

/-- In any order, `Filter` removes the transactions `f` selects, each once. -/
theorem filter_fst_perm (order : RangeOrder UInt64 Transaction) (m : TxSortedMap) (f : Transaction → Bool) :
    (m.filter order f).1.Perm (m.values.filter f) := by
  rw [filter_fst, values, List.filter_map]
  exact rangeDelete_fst_perm order f m.items

theorem lookup_filter (order : RangeOrder UInt64 Transaction) (m : TxSortedMap) (f : Transaction → Bool)
    (n : UInt64) : (m.filter order f).2.items.lookup n = (m.items.lookup n).filter fun tx => !f tx := by
  rw [filter_items, lookup_rangeDelete]

/-- The transactions `Filter` leaves: those `f` does not select. -/
theorem values_filter_perm (order : RangeOrder UInt64 Transaction) (m : TxSortedMap) (f : Transaction → Bool) :
    (m.filter order f).2.values.Perm (m.values.filter fun tx => !f tx) := by
  rw [values, values, List.filter_map]
  exact (AList.entries_perm_of_lookup (lookup_filter order m f)).map _

end TxSortedMap

namespace TxList

/-! ## The caps bound the transactions -/

theorem capsHold_new (strict : Bool) : (TxList.new strict).CapsHold := by
  intro n tx h
  nomatch h

/-- An operation that only removes transactions, the caps as they were, keeps them bounded. -/
theorem CapsHold.of_subMap {l : TxList} (h : l.CapsHold) {txs : TxSortedMap} (hsub : AList.SubMap txs.items l.txs.items) :
    ({ l with txs := txs } : TxList).CapsHold := fun n tx hn => h n tx (hsub n tx hn)

theorem CapsHold.accept {l : TxList} (h : l.CapsHold) (tx : Transaction) : (l.accept tx).CapsHold := by
  intro n tx' hn
  -- the caps only grow, and reach `tx`'s own cost, gas and value
  have hcost : l.costcap ≤ (l.accept tx).costcap ∧ tx.cost ≤ (l.accept tx).costcap := by
    simp only [TxList.accept]
    split <;> omega
  have hgas : l.gascap ≤ (l.accept tx).gascap ∧ tx.gas ≤ (l.accept tx).gascap := by
    simp only [TxList.accept, UInt64.le_iff_toNat_le, UInt64.lt_iff_toNat_lt]
    split <;> omega
  have hvalue : l.valuecap ≤ (l.accept tx).valuecap ∧ tx.value ≤ (l.accept tx).valuecap := by
    simp only [TxList.accept]
    split <;> omega
  have hput : (l.accept tx).txs.items = l.txs.items.insert tx.nonce tx := rfl
  rw [hput] at hn
  by_cases hnonce : n = tx.nonce
  · rw [hnonce, AList.lookup_insert, Option.some.injEq] at hn
    rw [← hn]
    exact ⟨hcost.2, hgas.2, hvalue.2⟩
  · have hold : l.txs.items.lookup n = some tx' := by
      rwa [AList.lookup_insert_ne hnonce] at hn
    obtain ⟨hc, hg, hv⟩ := h n tx' hold
    refine ⟨le_trans hc hcost.1, ?_, le_trans hv hvalue.1⟩
    rw [UInt64.le_iff_toNat_le] at hg hgas ⊢
    omega

theorem CapsHold.add {l : TxList} (h : l.CapsHold) (tx : Transaction) (priceBump : UInt64) :
    (l.add tx priceBump).2.CapsHold := by
  unfold TxList.add
  split
  · dsimp only
    split
    · exact h
    · exact h.accept tx
  · exact h.accept tx

theorem CapsHold.forward {l : TxList} (h : l.CapsHold) (threshold : UInt64) : (l.forward threshold).2.CapsHold :=
  h.of_subMap (TxSortedMap.forwardLoop_subMap threshold l.txs [])

theorem CapsHold.cap {l : TxList} (h : l.CapsHold) (threshold : Nat) : (l.cap threshold).2.CapsHold :=
  h.of_subMap (TxSortedMap.cap_subMap l.txs threshold)

theorem CapsHold.ready {l : TxList} (h : l.CapsHold) (start : UInt64) : (l.ready start).2.CapsHold :=
  h.of_subMap (TxSortedMap.ready_subMap l.txs start)

theorem CapsHold.remove {l : TxList} (h : l.CapsHold) (order : RangeOrder UInt64 Transaction) (tx : Transaction) :
    (l.remove order tx).2.CapsHold := by
  unfold TxList.remove
  dsimp only
  split_ifs
  · exact h
  · exact h.of_subMap ((TxSortedMap.filter_subMap order _ _).trans (TxSortedMap.remove_subMap l.txs tx.nonce))
  · exact h.of_subMap (TxSortedMap.remove_subMap l.txs tx.nonce)

/-- A transaction `Filter` keeps is within the limits it lowers the caps to. -/
theorem withinCaps_of_not_overLimit {valueLimit costLimit : Nat} {gasLimit : UInt64} {tx : Transaction}
    (h : overLimit valueLimit costLimit gasLimit tx = false) : tx.WithinCaps costLimit gasLimit valueLimit := by
  simp only [overLimit, Bool.or_eq_false_iff, decide_eq_false_iff_not, not_lt] at h
  exact ⟨h.1.2, UInt64.not_lt.mp h.2, h.1.1⟩

theorem CapsHold.filter {l : TxList} (h : l.CapsHold) (order : RangeOrder UInt64 Transaction)
    (valueLimit costLimit : Nat) (gasLimit : UInt64) : (l.filter order valueLimit costLimit gasLimit).2.CapsHold := by
  unfold TxList.filter
  dsimp only
  split_ifs
  · exact h
  · -- the strict pass removes more, from what the first pass left within the limits
    intro n tx hn
    have hn₁ := TxSortedMap.filter_subMap order _ _ n tx hn
    rw [TxSortedMap.lookup_filter] at hn₁
    exact withinCaps_of_not_overLimit (by simpa using (Option.filter_eq_some_iff.mp hn₁).2)
  · intro n tx hn
    rw [TxSortedMap.lookup_filter] at hn
    exact withinCaps_of_not_overLimit (by simpa using (Option.filter_eq_some_iff.mp hn).2)

/-- One operation keeps the caps bounding the transactions. -/
theorem CapsHold.apply {l : TxList} (h : l.CapsHold) (order : RangeOrder UInt64 Transaction) :
    ∀ op, (l.apply order op).CapsHold
  | .add tx priceBump => h.add tx priceBump
  | .forward threshold => h.forward threshold
  | .filter valueLimit costLimit gasLimit => h.filter order valueLimit costLimit gasLimit
  | .cap threshold => h.cap threshold
  | .remove tx => h.remove order tx
  | .ready start => h.ready start

/-- Every run keeps the caps bounding the transactions. -/
theorem CapsHold.run : ∀ {l : TxList} (ops : List (RangeOrder UInt64 Transaction × TxListOp)), l.CapsHold →
    (l.run ops).CapsHold
  | _, [], h => h
  | _, (order, op) :: ops, h => CapsHold.run ops (h.apply order op)

/-! ## What Filter removes -/

/-- From a start, the least of the start and the removed nonces is below `x` exactly when one of them is. -/
theorem foldl_lowest_lt_iff (x : UInt64) : ∀ (removed : List Transaction) (start : UInt64),
    removed.foldl (fun lowest tx => if lowest > tx.nonce then tx.nonce else lowest) start < x ↔
      start < x ∨ ∃ r ∈ removed, r.nonce < x
  | [], start => by simp
  | r :: removed, start => by
    have hmin : (if start > r.nonce then r.nonce else start) < x ↔ start < x ∨ r.nonce < x := by
      simp only [gt_iff_lt, UInt64.lt_iff_toNat_lt]
      split <;> omega
    rw [List.foldl_cons, foldl_lowest_lt_iff x removed, hmin, or_assoc]
    simp only [List.mem_cons, exists_eq_or_imp]

/-- A nonce is above the lowest removed one exactly when it is above some removed one. -/
theorem lowestNonce_lt_iff (removed : List Transaction) (x : UInt64) :
    lowestNonce removed < x ↔ ∃ r ∈ removed, r.nonce < x := by
  rw [lowestNonce, foldl_lowest_lt_iff]
  have hmax : ¬ UInt64.ofNat (2 ^ 64 - 1) < x := by
    rw [UInt64.lt_iff_toNat_lt, UInt64.toNat_ofNat']
    have := UInt64.toNat_lt x
    omega
  exact ⟨fun h => h.resolve_left hmax, Or.inr⟩

/-- What `Filter` is for, on a list `l` and limits: `removed` is the transactions over a limit; in strict mode
`invalids` is, of the others, those of a nonce above one removed; and `l'` holds the transactions left. -/
structure FilterSpec (l : TxList) (valueLimit costLimit : Nat) (gasLimit : UInt64)
    (removed invalids : List Transaction) (l' : TxList) : Prop where
  removed_perm : removed.Perm (l.txs.values.filter (overLimit valueLimit costLimit gasLimit))
  invalids_perm : invalids.Perm (if l.strict then
    (l.txs.values.filter fun tx => !overLimit valueLimit costLimit gasLimit tx).filter
      fun tx => removed.any fun r => decide (r.nonce < tx.nonce) else [])
  lookup_eq : ∀ n, l'.txs.items.lookup n = (l.txs.items.lookup n).filter fun tx =>
    !overLimit valueLimit costLimit gasLimit tx && !(l.strict && removed.any fun r => decide (r.nonce < tx.nonce))

/-- A transaction of a list whose caps hold is over no limit at or above the caps. -/
theorem CapsHold.not_overLimit {l : TxList} (h : l.CapsHold) {valueLimit costLimit : Nat} {gasLimit : UInt64}
    (hcaps : l.valuecap ≤ valueLimit ∧ l.costcap ≤ costLimit ∧ l.gascap ≤ gasLimit) {n : UInt64} {tx : Transaction}
    (hn : l.txs.items.lookup n = some tx) : overLimit valueLimit costLimit gasLimit tx = false := by
  obtain ⟨hc, hg, hv⟩ := h n tx hn
  obtain ⟨hvl, hcl, hgl⟩ := hcaps
  rw [UInt64.le_iff_toNat_le] at hg hgl
  simp only [overLimit, Bool.or_eq_false_iff, decide_eq_false_iff_not, not_lt, UInt64.lt_iff_toNat_lt]
  omega

theorem mem_values {m : TxSortedMap} {tx : Transaction} (h : tx ∈ m.values) : ∃ n, m.items.lookup n = some tx := by
  obtain ⟨⟨n, tx'⟩, he, rfl⟩ := List.mem_map.mp h
  exact ⟨n, AList.mem_lookup_iff.mpr he⟩

/-- `Filter`'s short cut: with the caps within the limits, nothing is over them, and returning nothing is right. -/
theorem filterSpec_of_caps_le {l : TxList} (h : l.CapsHold) {valueLimit costLimit : Nat} {gasLimit : UInt64}
    (hcaps : l.valuecap ≤ valueLimit ∧ l.costcap ≤ costLimit ∧ l.gascap ≤ gasLimit) :
    FilterSpec l valueLimit costLimit gasLimit [] [] l := by
  have hnone : l.txs.values.filter (overLimit valueLimit costLimit gasLimit) = [] := by
    rw [List.filter_eq_nil_iff]
    intro tx htx
    obtain ⟨n, hn⟩ := mem_values htx
    rw [h.not_overLimit hcaps hn]
    exact Bool.false_ne_true
  refine ⟨by rw [hnone], by split <;> simp, fun n => ?_⟩
  cases hn : l.txs.items.lookup n with
  | none => rfl
  | some tx => simp [Option.filter_some, h.not_overLimit hcaps hn]

/-- The strict pass, after the first one removed `removed`: the transactions left by the first pass whose nonce is
above one removed. -/
theorem strict_pass {l : TxList} (order : RangeOrder UInt64 Transaction) (valueLimit costLimit : Nat)
    (gasLimit : UInt64) :
    let r := l.txs.filter order (overLimit valueLimit costLimit gasLimit)
    (r.2.filter order fun tx => decide (tx.nonce > lowestNonce r.1)) =
      r.2.filter order fun tx => r.1.any fun rm => decide (rm.nonce < tx.nonce) := by
  intro r
  congr 1
  funext tx
  rw [Bool.eq_iff_iff, List.any_eq_true]
  simp only [gt_iff_lt, decide_eq_true_eq, lowestNonce_lt_iff]

/-- `Filter` on a list whose caps hold does what it is for, in every order of its loops. -/
theorem CapsHold.filterSpec {l : TxList} (h : l.CapsHold) (order : RangeOrder UInt64 Transaction)
    (valueLimit costLimit : Nat) (gasLimit : UInt64) :
    FilterSpec l valueLimit costLimit gasLimit (l.filter order valueLimit costLimit gasLimit).1.1
      (l.filter order valueLimit costLimit gasLimit).1.2 (l.filter order valueLimit costLimit gasLimit).2 := by
  by_cases hcaps : l.valuecap ≤ valueLimit ∧ l.costcap ≤ costLimit ∧ l.gascap ≤ gasLimit
  · have hshort : l.filter order valueLimit costLimit gasLimit = (([], []), l) := if_pos hcaps
    rw [hshort]
    exact filterSpec_of_caps_le h hcaps
  · have hr := TxSortedMap.filter_fst_perm order l.txs (overLimit valueLimit costLimit gasLimit)
    have hlookup := TxSortedMap.lookup_filter order l.txs (overLimit valueLimit costLimit gasLimit)
    generalize hR : l.txs.filter order (overLimit valueLimit costLimit gasLimit) = R at hr hlookup
    have hpass := strict_pass (l := l) order valueLimit costLimit gasLimit
    simp only [hR] at hpass
    by_cases hstrict : l.strict = true ∧ R.1.length > 0
    · -- the strict pass runs, on what the first one left
      have hf : l.filter order valueLimit costLimit gasLimit =
          ((R.1, (R.2.filter order fun tx => R.1.any fun rm => decide (rm.nonce < tx.nonce)).1),
            { l with txs := (R.2.filter order fun tx => R.1.any fun rm => decide (rm.nonce < tx.nonce)).2,
                     costcap := costLimit, gascap := gasLimit, valuecap := valueLimit }) := by
        unfold TxList.filter
        rw [if_neg hcaps]
        dsimp only
        rw [hR, if_pos hstrict, hpass]
      rw [hf]
      refine ⟨hr, ?_, fun n => ?_⟩
      · rw [if_pos hstrict.1]
        refine (TxSortedMap.filter_fst_perm order _ _).trans (List.Perm.filter _ ?_)
        have hleft := TxSortedMap.values_filter_perm order l.txs (overLimit valueLimit costLimit gasLimit)
        rwa [hR] at hleft
      · dsimp only
        rw [TxSortedMap.lookup_filter, hlookup, Option.filter_filter, hstrict.1]
        simp only [Bool.true_and]
    · -- no strict pass: what the first one left
      have hf : l.filter order valueLimit costLimit gasLimit =
          ((R.1, []), { l with txs := R.2, costcap := costLimit, gascap := gasLimit, valuecap := valueLimit }) := by
        unfold TxList.filter
        rw [if_neg hcaps]
        dsimp only
        rw [hR, if_neg hstrict]
      -- in strict mode the first pass removed nothing, so no nonce is above a removed one
      have hany : ∀ tx : Transaction, (l.strict && R.1.any fun rm => decide (rm.nonce < tx.nonce)) = false := by
        intro tx
        by_cases hs : l.strict = true
        · have hlen : ¬ R.1.length > 0 := fun hl => hstrict ⟨hs, hl⟩
          have hnil : R.1 = [] := List.eq_nil_of_length_eq_zero (by omega)
          simp [hnil]
        · simp [hs]
      rw [hf]
      refine ⟨hr, ?_, fun n => ?_⟩
      · split
        · rename_i hs
          rw [List.filter_eq_nil_iff.mpr fun tx _ => by simpa [hs] using hany tx]
        · exact List.Perm.refl _
      · dsimp only
        rw [hlookup]
        congr 1
        funext tx
        rw [hany tx, Bool.not_false, Bool.and_true]

end TxList

end Etherzero.TxPool
