import Mathlib
import Etherzero.Lemmas.Refund

/-!
# `SubRefund` never panics in a transaction

A transaction starts from the state `Finalise` leaves: every slot written to its committed value, the refund counter,
the journal and the revisions cleared. From there the invariant of `Lemmas/Refund.lean` holds, every frame that
finishes keeps it, and every frame that fails is reverted by its caller to the state before the call, where it held:
the run of the transaction's call never reaches a `SubRefund` that would go below zero, and ends with the invariant.
-/

namespace Etherzero.State

namespace StateDB

theorem RefundInv.of_refundStep {s t : StateDB} (h : s.RefundInv) (hstep : RefundStep s t)
    (hr : s.refund ≤ t.refund) : t.RefundInv :=
  h.mono hstep.clearedSet.subset hr

theorem RefundInv.getOrNewStateObject {s : StateDB} (h : s.RefundInv) (a : Address) :
    (s.getOrNewStateObject a).2.RefundInv :=
  h.mono (clearedSet_congr (getState_getOrNewStateObject s a) (getCommittedState_getOrNewStateObject s a)).subset
    (le_of_eq (refund_getOrNewStateObject s a).symm)

theorem RefundInv.suicide {s : StateDB} (h : s.RefundInv) (a : Address) : (s.suicide a).2.RefundInv :=
  h.mono (clearedSet_congr (getState_suicide s a) (getCommittedState_suicide s a)).subset
    (le_of_eq (refund_suicide s a).symm)

theorem RefundInv.createAccount {s : StateDB} (h : s.RefundInv) (a : Address) : (s.createAccount a).RefundInv :=
  h.mono (clearedSet_createAccount_subset s a) (le_of_eq (refund_createObject s a).symm)

/-- The state the callee starts from: the snapshot, and the account a create makes. -/
theorem callee_start {s s₂ : StateDB} (hinv : s.RefundInv) (hwf : s.RevisionsWF) (callee : Address) (create : Bool)
    (hs₂ : s₂ = if create then s.snapshot.2.createAccount callee else s.snapshot.2) :
    s.snapshot.2.Extends s₂ ∧ s₂.RefundInv ∧ s₂.RevisionsWF := by
  have hinv₁ : s.snapshot.2.RefundInv := hinv.of_view rfl
  subst hs₂
  split
  · have hj := journalled_createObject s.snapshot.2 callee
    exact ⟨hj.toExtends, hinv₁.createAccount callee, hwf.snapshot.of_journalled hj⟩
  · exact ⟨Extends.refl _, hinv₁, hwf.snapshot⟩

/-- Reverting a failed callee gives back the caller's state before the call, as a reader sees it. -/
theorem callee_revert {s s₃ : StateDB} (hinv : s.RefundInv) (hwf : s.RevisionsWF) (hext : s.snapshot.2.Extends s₃) :
    ∃ u, s₃.revertToSnapshot s.snapshot.1 = .ok u ∧ s.Extends u ∧ u.RevisionsWF ∧ u.RefundInv := by
  obtain ⟨u, hrev, hview, hjournal, hrevs, hnext⟩ := revertToSnapshot_of_extends hwf hext
  -- no revision id is taken back: the revert keeps the callee's count, which is past the caller's
  have hle : s.nextRevisionId ≤ u.nextRevisionId := by
    rw [hnext]
    exact le_trans (extends_snapshot s).nextRevisionId hext.nextRevisionId
  refine ⟨u, hrev, ⟨⟨[], by rw [hjournal, List.append_nil], Undoes.of_view hview⟩, ⟨[], by rw [hrevs, List.append_nil]⟩,
    hle⟩, ?_, hinv.of_view hview⟩
  intro r hr
  rw [hrevs] at hr
  exact lt_of_lt_of_le (hwf r hr) hle

/-- A frame journals all it does, and a frame that finishes keeps the invariant; one that fails may have broken it
(an `SSTORE` out of gas keeps `gasSStore`'s refund without the write), which the revert of its call repairs: a call
always ends with the invariant. The induction is the mutual one of the frame and the call. -/
theorem runFrame_evmCall_spec (isConstantinople : Bool) :
    (∀ addr code s, s.RefundInv → s.RevisionsWF →
      ∃ ok t, runFrame isConstantinople addr code s = .ok (ok, t) ∧ s.Extends t ∧ t.RevisionsWF ∧
        (ok = true → t.RefundInv)) ∧
    (∀ c s, s.RefundInv → s.RevisionsWF →
      ∃ ok t, evmCall isConstantinople c s = .ok (ok, t) ∧ s.Extends t ∧ t.RevisionsWF ∧ t.RefundInv) := by
  refine runFrame.mutual_induct isConstantinople _ _ ?_ ?_ ?_ ?_ ?_ ?_ ?_ ?_ ?_ ?_ ?_ ?_ ?_
  · -- the callee stopped with an error: impossible under the invariant
    intro callee create body s
    dsimp only
    intro e herr ih hinv hwf
    obtain ⟨-, hinv₂, hwf₂⟩ := callee_start hinv hwf callee create rfl
    obtain ⟨ok, t, hrun, -⟩ := ih hinv₂ hwf₂
    rw [hrun] at herr
    nomatch herr
  · -- the callee finished
    intro callee create body s
    dsimp only
    intro s₃ hbody ih hinv hwf
    obtain ⟨hext₂, hinv₂, hwf₂⟩ := callee_start hinv hwf callee create rfl
    obtain ⟨ok, t, hrun, hext₃, hwf₃, hinv₃⟩ := ih hinv₂ hwf₂
    obtain ⟨rfl, rfl⟩ : ok = true ∧ t = s₃ := by
      rw [hrun] at hbody
      injection hbody with hbody
      exact Prod.mk.inj hbody
    refine ⟨true, t, ?_, (extends_snapshot s).trans (hext₂.trans hext₃), hwf₃, hinv₃ rfl⟩
    simp only [evmCall, hbody]
  · -- the callee failed and its snapshot is missing: impossible
    intro callee create body s
    dsimp only
    intro s₃ hbody e herr ih hinv hwf
    obtain ⟨hext₂, hinv₂, hwf₂⟩ := callee_start hinv hwf callee create rfl
    obtain ⟨ok, t, hrun, hext₃, -⟩ := ih hinv₂ hwf₂
    obtain rfl : t = s₃ := by
      rw [hrun] at hbody
      injection hbody with hbody
      exact (Prod.mk.inj hbody).2
    obtain ⟨u, hrev, -⟩ := callee_revert hinv hwf (hext₂.trans hext₃)
    rw [hrev] at herr
    nomatch herr
  · -- the callee failed and is reverted to the state before the call
    intro callee create body s
    dsimp only
    intro s₃ hbody s₄ hrev ih hinv hwf
    obtain ⟨hext₂, hinv₂, hwf₂⟩ := callee_start hinv hwf callee create rfl
    obtain ⟨ok, t, hrun, hext₃, -⟩ := ih hinv₂ hwf₂
    obtain rfl : t = s₃ := by
      rw [hrun] at hbody
      injection hbody with hbody
      exact (Prod.mk.inj hbody).2
    obtain ⟨u, hrev', hext, hwf₄, hinv₄⟩ := callee_revert hinv hwf (hext₂.trans hext₃)
    obtain rfl : u = s₄ := by
      rw [hrev'] at hrev
      injection hrev
    refine ⟨false, u, ?_, hext, hwf₄, hinv₄⟩
    simp only [evmCall, hbody, hrev']
  · intro addr s hinv hwf
    exact ⟨true, s, by rw [runFrame], Extends.refl s, hwf, fun _ => hinv⟩
  · intro addr key value gas rest s e herr hinv _
    obtain ⟨r, hr⟩ := gasSStore_ok isConstantinople hinv addr key value
    rw [hr] at herr
    nomatch herr
  · -- out of gas: the refund is changed and the slot is not written
    intro addr key value gas rest s cost t hg hlt _ hwf
    have hj := (gasSStore_refund hg).1.journalled
    exact ⟨false, t, by simp only [runFrame, hg, if_pos hlt], hj.toExtends, hwf.of_journalled hj, fun h => nomatch h⟩
  · intro addr key value gas rest s cost t hg hlt ih hinv hwf
    have hj := (gasSStore_refund hg).1.journalled.trans (journalled_setState t addr key value)
    obtain ⟨ok, u, hrun, hext, hwf', hinv'⟩ := ih (hinv.sstore hg) (hwf.of_journalled hj)
    exact ⟨ok, u, by simp only [runFrame, hg, if_neg hlt, hrun], hj.toExtends.trans hext, hwf', hinv'⟩
  · intro addr beneficiary tail s _ hwf
    have hj := (refundStep_suicideRefund s addr).1.journalled
    exact ⟨false, _, by simp only [runFrame, if_true], hj.toExtends, hwf.of_journalled hj, fun h => nomatch h⟩
  · intro addr beneficiary outOfGas tail s hgas hinv hwf
    obtain ⟨hstep, hr⟩ := refundStep_suicideRefund s addr
    have hj := hstep.journalled.trans ((journalled_getOrNewStateObject _ beneficiary).trans (journalled_suicide _ addr))
    have hinv₁ := hinv.of_refundStep hstep hr
    exact ⟨true, _, by rw [runFrame, if_neg hgas], hj.toExtends, hwf.of_journalled hj,
      fun _ => (hinv₁.getOrNewStateObject beneficiary).suicide addr⟩
  · intro addr c rest s e herr ih hinv hwf
    obtain ⟨ok, t, hcall, -⟩ := ih hinv hwf
    rw [hcall] at herr
    nomatch herr
  · -- the frame goes on after the call, from the state the call leaves
    intro addr c rest s ok t hcall ih ihrest hinv hwf
    obtain ⟨ok', t', hcall', hext, hwf', hinv'⟩ := ih hinv hwf
    obtain rfl : t' = t := by
      rw [hcall'] at hcall
      injection hcall with hcall
      exact (Prod.mk.inj hcall).2
    obtain ⟨ok'', u, hrest, hext', hwf'', hinv''⟩ := ihrest hinv' hwf'
    exact ⟨ok'', u, by simp only [runFrame, hcall, hrest], hext.trans hext', hwf'', hinv''⟩
  · intro addr tail s _ hwf
    exact ⟨false, s, by rw [runFrame], Extends.refl s, hwf, fun h => nomatch h⟩

/-- The state a transaction starts from: `Finalise` has written every slot to its committed value and cleared the
refund counter and the revisions (`clearJournalAndRefund`). -/
structure TxStart (s : StateDB) : Prop where
  committed : ∀ a k, s.getState a k = s.getCommittedState a k
  refund : s.refund = 0
  validRevisions : s.validRevisions = []

theorem RefundInv.of_txStart {s : StateDB} (h : TxStart s) : s.RefundInv := by
  -- no slot is cleared: its current value is its committed one
  have hempty : s.clearedSet = ∅ := by
    ext ⟨a, k⟩
    simp only [clearedSet, Set.mem_ofPred_eq, Set.mem_empty_iff_false, iff_false, not_and]
    intro hc hg
    exact hc ((h.committed a k).symm.trans hg)
  refine ⟨hempty ▸ Set.finite_empty, ?_⟩
  rw [hempty, Set.ncard_empty, Nat.mul_zero, h.refund]

theorem RevisionsWF.of_txStart {s : StateDB} (h : TxStart s) : s.RevisionsWF := by
  intro r hr
  rw [h.validRevisions] at hr
  nomatch hr

/-- The call of a transaction, under either rule set, with any nesting of calls, creates, `SSTORE`s (each with any gas
left), self-destructs and failing or reverted frames, never fails: no `SubRefund` goes below zero (nor is a snapshot
missing), and the refund counter ends holding `NetSstoreClearRefund` for each cleared slot. -/
theorem evmCall_refund_safe (isConstantinople : Bool) (c : Call) {s : StateDB} (hs : TxStart s) :
    ∃ ok t, evmCall isConstantinople c s = .ok (ok, t) ∧ t.RefundInv := by
  obtain ⟨ok, t, hcall, -, -, hinv⟩ :=
    (runFrame_evmCall_spec isConstantinople).2 c s (RefundInv.of_txStart hs) (RevisionsWF.of_txStart hs)
  exact ⟨ok, t, hcall, hinv⟩

example : (evmCall true (.mk 1 false [.sstore 0 0 30000, .call (.mk 1 false [.sstore 0 7 30000, .fail]),
    .sstore 2 0 30000]) ⟨fun _ => some fun _ => 1, ∅, 0, [], [], 0⟩).map (fun r => (r.1, r.2.refund)) =
      .ok (true, 30000) := by
  decide

/-- A call whose frame clears a committed slot, calls a frame that writes it again and fails, and clears another,
from accounts that hold 1 in every slot. -/
theorem evmCall_refund_safe_clear :
    TxStart ⟨fun _ => some fun _ => 1, ∅, 0, [], [], 0⟩ ∧
      ∃ ok t, evmCall true (.mk 1 false [.sstore 0 0 30000, .call (.mk 1 false [.sstore 0 7 30000, .fail]),
        .sstore 2 0 30000]) ⟨fun _ => some fun _ => 1, ∅, 0, [], [], 0⟩ = .ok (ok, t) ∧ t.RefundInv :=
  have hs : TxStart ⟨fun _ => some fun _ => 1, ∅, 0, [], [], 0⟩ := ⟨fun _ _ => rfl, rfl, rfl⟩
  ⟨hs, evmCall_refund_safe true _ hs⟩

end StateDB

end Etherzero.State
