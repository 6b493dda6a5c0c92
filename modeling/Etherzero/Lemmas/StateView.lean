import Mathlib
import Etherzero.Lib.Journal
import Etherzero.State.StateDB

/-!
# What the journal undoes

A reader of storage sees, for each account, whether it exists and, if so, its committed and current storage and its
suicided flag; and it sees the refund counter. Every change of the model appends journal entries that undo it as such
a reader sees it (`Extends`), and a snapshot's revert gives back what the reader saw when the snapshot was taken. The
states a revert gives back differ from the earlier ones in how they are held (a reverted write leaves the key written,
to its old value), which no reader sees.
-/

namespace Etherzero.State

/-- What the storage readers see of an object: its committed storage, its current storage and its suicided flag. -/
def StateObject.observe (o : StateObject) : (Hash → Hash) × (Hash → Hash) × Bool :=
  (o.getCommittedState, o.getState, o.suicided)

theorem StateObject.getState_setState (o : StateObject) (key value : Hash) :
    (o.setState key value).getState = Function.update o.getState key value := by
  funext k
  by_cases hk : k = key
  · subst hk
    simp [StateObject.getState, StateObject.setState, AList.lookup_insert]
  · simp [StateObject.getState, StateObject.setState, AList.lookup_insert_ne hk, hk]

theorem StateObject.observe_setState (o : StateObject) (key value : Hash) :
    (o.setState key value).observe = (o.getCommittedState, Function.update o.getState key value, o.suicided) := by
  rw [StateObject.observe, StateObject.getState_setState]
  rfl

namespace StateDB

/-- What `GetState`, `GetCommittedState`, `HasSuicided` and `GetRefund` see, with the trie accounts are loaded from. -/
def view (s : StateDB) :
    (Address → Option (Hash → Hash)) × (Address → Option ((Hash → Hash) × (Hash → Hash) × Bool)) × Nat :=
  (s.trie, fun a => (s.getStateObject a).map StateObject.observe, s.refund)

/-- `es` undoes the change from `s` to `t`, as the storage readers see it. -/
abbrev Undoes (es : List JournalEntry) (s t : StateDB) : Prop := Etherzero.Undoes JournalEntry.revert view es s t

/-- `t` comes from `s` by changes that the entries appended to `s`'s journal undo; `s`'s revisions are still there
and no id is taken back. -/
structure Extends (s t : StateDB) : Prop where
  journal : ∃ es, t.journal = s.journal ++ es ∧ Undoes es s t
  revisions : ∃ rs, t.validRevisions = s.validRevisions ++ rs
  nextRevisionId : s.nextRevisionId ≤ t.nextRevisionId

/-- Every revision's id is below the next one. -/
def RevisionsWF (s : StateDB) : Prop := ∀ r ∈ s.validRevisions, r.id < s.nextRevisionId

/-! ## Reading after a change -/

theorem getStateObject_setStateObject (s : StateDB) (a b : Address) (o : StateObject) :
    (s.setStateObject a o).getStateObject b = if b = a then some o else s.getStateObject b := by
  by_cases hb : b = a
  · subst hb
    simp [getStateObject, setStateObject, AList.lookup_insert]
  · simp [getStateObject, setStateObject, AList.lookup_insert_ne hb, hb]

theorem view_append (s : StateDB) (e : JournalEntry) : (s.append e).view = s.view := rfl

theorem getState_eq (s : StateDB) (a : Address) (k : Hash) :
    s.getState a k = ((s.getStateObject a).map fun o => o.getState k).getD 0 := by
  unfold getState
  split <;> simp_all

theorem getCommittedState_eq (s : StateDB) (a : Address) (k : Hash) :
    s.getCommittedState a k = ((s.getStateObject a).map fun o => o.getCommittedState k).getD 0 := by
  unfold getCommittedState
  split <;> simp_all

theorem hasSuicided_eq (s : StateDB) (a : Address) :
    s.hasSuicided a = ((s.getStateObject a).map StateObject.suicided).getD false := by
  unfold hasSuicided
  split <;> simp_all

/-- What the readers see of an account is its part of the view. -/
theorem getStateObject_observe_of_view {s t : StateDB} (h : s.view = t.view) (a : Address) :
    (s.getStateObject a).map StateObject.observe = (t.getStateObject a).map StateObject.observe :=
  congrFun (congrArg (fun v => v.2.1) h) a

theorem getState_of_view {s t : StateDB} (h : s.view = t.view) (a : Address) (k : Hash) :
    s.getState a k = t.getState a k := by
  have ha := getStateObject_observe_of_view h a
  rw [getState_eq, getState_eq]
  cases hs : s.getStateObject a <;> cases ht : t.getStateObject a <;> simp_all [StateObject.observe]

theorem getCommittedState_of_view {s t : StateDB} (h : s.view = t.view) (a : Address) (k : Hash) :
    s.getCommittedState a k = t.getCommittedState a k := by
  have ha := getStateObject_observe_of_view h a
  rw [getCommittedState_eq, getCommittedState_eq]
  cases hs : s.getStateObject a <;> cases ht : t.getStateObject a <;> simp_all [StateObject.observe]

theorem hasSuicided_of_view {s t : StateDB} (h : s.view = t.view) (a : Address) :
    s.hasSuicided a = t.hasSuicided a := by
  have ha := getStateObject_observe_of_view h a
  rw [hasSuicided_eq, hasSuicided_eq]
  cases hs : s.getStateObject a <;> cases ht : t.getStateObject a <;> simp_all [StateObject.observe]

theorem refund_of_view {s t : StateDB} (h : s.view = t.view) : s.refund = t.refund :=
  congrArg (fun v => v.2.2) h

/-- Two states look alike when their tries, what they hold of each account and their refund counters do. -/
theorem view_eq_of {s t : StateDB} (htrie : s.trie = t.trie)
    (hobj : ∀ a, (s.getStateObject a).map StateObject.observe = (t.getStateObject a).map StateObject.observe)
    (hrefund : s.refund = t.refund) : s.view = t.view :=
  Prod.ext htrie (Prod.ext (funext hobj) hrefund)

/-- Replacing an account's object changes only that account's part of the view. -/
theorem view_setStateObject {s t : StateDB} (h : s.view = t.view) (a : Address) {o o' : StateObject}
    (ho : o.observe = o'.observe) : (s.setStateObject a o).view = (t.setStateObject a o').view := by
  refine view_eq_of (congrArg Prod.fst h) (fun b => ?_) (refund_of_view (s := s) (t := t) h)
  simp only [getStateObject_setStateObject]
  split
  · simp [ho]
  · exact getStateObject_observe_of_view h b

/-- Putting back the object an account has changes nothing a reader sees. -/
theorem view_setStateObject_of_get {s : StateDB} {a : Address} {o : StateObject} (h : s.getStateObject a = some o) :
    (s.setStateObject a o).view = s.view := by
  refine view_eq_of rfl (fun b => ?_) rfl
  simp only [getStateObject_setStateObject]
  split
  · subst b
    rw [h]
  · rfl

theorem view_setStateObject_twice (s : StateDB) (a : Address) (o₁ o₂ : StateObject) :
    ((s.setStateObject a o₁).setStateObject a o₂).view = (s.setStateObject a o₂).view := by
  refine view_eq_of rfl (fun b => ?_) rfl
  simp only [getStateObject_setStateObject]
  split <;> rfl

/-! ## Each change undone by its entries -/

/-- A written value is undone by writing back the one it replaced. -/
theorem undoes_storageChange {s : StateDB} {a : Address} {obj : StateObject} (hobj : s.getStateObject a = some obj)
    (k v : Hash) :
    Undoes [.storageChange a k (obj.getState k)] s
      ((s.append (.storageChange a k (obj.getState k))).setStateObject a (obj.setState k v)) := by
  intro t ht
  have hta := getStateObject_observe_of_view ht a
  rw [getStateObject_setStateObject, if_pos rfl] at hta
  obtain ⟨o', ho', hobs⟩ := Option.map_eq_some_iff.mp hta
  simp only [undoEntries_cons, undoEntries_nil, JournalEntry.revert, ho']
  -- the object found holds the written value; writing the old one back gives the object as it was
  rw [StateObject.observe_setState] at hobs
  simp only [StateObject.observe, Prod.mk.injEq] at hobs
  obtain ⟨hc, hg, hsu⟩ := hobs
  have hback : (o'.setState k (obj.getState k)).observe = obj.observe := by
    rw [StateObject.observe_setState, hc, hg, hsu, Function.update_idem, Function.update_eq_self]
    rfl
  calc (t.setStateObject a (o'.setState k (obj.getState k))).view
      = (((s.append (.storageChange a k (obj.getState k))).setStateObject a (obj.setState k v)).setStateObject a
          obj).view := view_setStateObject ht a hback
    _ = ((s.append (.storageChange a k (obj.getState k))).setStateObject a obj).view :=
          view_setStateObject_twice _ a _ obj
    _ = s.view := view_setStateObject_of_get hobj

theorem getStateObject_erase (t : StateDB) (a b : Address) :
    ({ t with stateObjects := t.stateObjects.erase a } : StateDB).getStateObject b =
      if b = a then (t.trie a).map StateObject.load else t.getStateObject b := by
  by_cases hb : b = a
  · subst hb
    simp [getStateObject, AList.lookup_erase]
  · simp [getStateObject, AList.lookup_erase_ne hb, hb]

theorem trie_eq_none_of_getStateObject {s : StateDB} {a : Address} (h : s.getStateObject a = none) :
    s.trie a = none := by
  unfold getStateObject at h
  split at h
  · nomatch h
  · exact Option.map_eq_none_iff.mp h

/-- A created object over an account that did not exist is undone by dropping the object. -/
theorem undoes_createObjectChange {s : StateDB} {a : Address} (hnone : s.getStateObject a = none) (o : StateObject) :
    Undoes [.createObjectChange a] s ((s.append (.createObjectChange a)).setStateObject a o) := by
  intro t ht
  have htrie : t.trie = s.trie := congrArg Prod.fst ht
  have hrefund : t.refund = s.refund := (refund_of_view ht).trans rfl
  simp only [undoEntries_cons, undoEntries_nil, JournalEntry.revert]
  refine view_eq_of htrie (fun b => ?_) hrefund
  rw [getStateObject_erase]
  split
  · -- the account is loaded from the trie again, where it does not exist
    subst b
    rw [htrie, trie_eq_none_of_getStateObject hnone, hnone]
    rfl
  · rename_i hb
    have htb := getStateObject_observe_of_view ht b
    rw [getStateObject_setStateObject, if_neg hb] at htb
    exact htb

/-- An object put over an existing one is undone by putting the old one back. -/
theorem undoes_resetObjectChange {s : StateDB} {a : Address} {prev : StateObject} (hprev : s.getStateObject a = some prev)
    (o : StateObject) :
    Undoes [.resetObjectChange a prev] s ((s.append (.resetObjectChange a prev)).setStateObject a o) := by
  intro t ht
  simp only [undoEntries_cons, undoEntries_nil, JournalEntry.revert]
  calc (t.setStateObject a prev).view
      = (((s.append (.resetObjectChange a prev)).setStateObject a o).setStateObject a prev).view :=
        view_setStateObject ht a rfl
    _ = ((s.append (.resetObjectChange a prev)).setStateObject a prev).view := view_setStateObject_twice _ a _ prev
    _ = s.view := view_setStateObject_of_get hprev

/-- Marking an object suicided is undone by putting its flag back. -/
theorem undoes_suicideChange {s : StateDB} {a : Address} {obj : StateObject} (hobj : s.getStateObject a = some obj) :
    Undoes [.suicideChange a obj.suicided] s
      ((s.append (.suicideChange a obj.suicided)).setStateObject a { obj with suicided := true }) := by
  intro t ht
  have hta := getStateObject_observe_of_view ht a
  rw [getStateObject_setStateObject, if_pos rfl] at hta
  obtain ⟨o', ho', hobs⟩ := Option.map_eq_some_iff.mp hta
  simp only [undoEntries_cons, undoEntries_nil, JournalEntry.revert, ho']
  simp only [StateObject.observe, Prod.mk.injEq] at hobs
  obtain ⟨hc, hg, -⟩ := hobs
  have hback : ({ o' with suicided := obj.suicided } : StateObject).observe = obj.observe := by
    simp only [StateObject.observe, Prod.mk.injEq]
    exact ⟨hc, hg, trivial⟩
  calc (t.setStateObject a { o' with suicided := obj.suicided }).view
      = (((s.append (.suicideChange a obj.suicided)).setStateObject a { obj with suicided := true }).setStateObject a
          obj).view := view_setStateObject ht a hback
    _ = ((s.append (.suicideChange a obj.suicided)).setStateObject a obj).view := view_setStateObject_twice _ a _ obj
    _ = s.view := view_setStateObject_of_get hobj

/-- A new value of the refund counter is undone by putting the old one back. -/
theorem undoes_refundChange (s : StateDB) (r : Nat) :
    Undoes [.refundChange s.refund] s { s.append (.refundChange s.refund) with refund := r } := by
  intro t ht
  simp only [undoEntries_cons, undoEntries_nil, JournalEntry.revert]
  refine view_eq_of (congrArg Prod.fst ht) (fun b => ?_) rfl
  have hb := getStateObject_observe_of_view ht b
  exact hb

/-! ## Each change journalled -/

/-- `t` comes from `s` by changes of storage, objects or the refund counter, which the entries appended to `s`'s
journal undo; the revisions are as they were. -/
structure Journalled (s t : StateDB) : Prop where
  journal : ∃ es, t.journal = s.journal ++ es ∧ Undoes es s t
  validRevisions : t.validRevisions = s.validRevisions
  nextRevisionId : t.nextRevisionId = s.nextRevisionId

theorem Journalled.refl (s : StateDB) : Journalled s s :=
  ⟨⟨[], by simp, Undoes.refl s⟩, rfl, rfl⟩

theorem Journalled.trans {s t u : StateDB} (h₁ : Journalled s t) (h₂ : Journalled t u) : Journalled s u := by
  obtain ⟨⟨es₁, hj₁, hu₁⟩, hr₁, hn₁⟩ := h₁
  obtain ⟨⟨es₂, hj₂, hu₂⟩, hr₂, hn₂⟩ := h₂
  exact ⟨⟨es₁ ++ es₂, by rw [hj₂, hj₁, List.append_assoc], hu₁.trans hu₂⟩, hr₂.trans hr₁, hn₂.trans hn₁⟩

theorem Journalled.toExtends {s t : StateDB} (h : Journalled s t) : Extends s t :=
  ⟨h.journal, ⟨[], by rw [h.validRevisions, List.append_nil]⟩, le_of_eq h.nextRevisionId.symm⟩

theorem RevisionsWF.of_journalled {s t : StateDB} (hwf : RevisionsWF s) (h : Journalled s t) : RevisionsWF t := by
  intro r hr
  rw [h.validRevisions] at hr
  rw [h.nextRevisionId]
  exact hwf r hr

theorem Extends.refl (s : StateDB) : Extends s s := (Journalled.refl s).toExtends

theorem Extends.trans {s t u : StateDB} (h₁ : Extends s t) (h₂ : Extends t u) : Extends s u := by
  obtain ⟨⟨es₁, hj₁, hu₁⟩, ⟨rs₁, hr₁⟩, hn₁⟩ := h₁
  obtain ⟨⟨es₂, hj₂, hu₂⟩, ⟨rs₂, hr₂⟩, hn₂⟩ := h₂
  exact ⟨⟨es₁ ++ es₂, by rw [hj₂, hj₁, List.append_assoc], hu₁.trans hu₂⟩,
    ⟨rs₁ ++ rs₂, by rw [hr₂, hr₁, List.append_assoc]⟩, le_trans hn₁ hn₂⟩

/-- A change that appends one entry undoing it. -/
theorem journalled_of_entry {s t : StateDB} {e : JournalEntry} (hj : t.journal = s.journal ++ [e])
    (hu : Undoes [e] s t) (hr : t.validRevisions = s.validRevisions) (hn : t.nextRevisionId = s.nextRevisionId) :
    Journalled s t :=
  ⟨⟨[e], hj, hu⟩, hr, hn⟩

theorem journalled_createObject (s : StateDB) (a : Address) : Journalled s (s.createObject a).2 := by
  unfold createObject
  split
  · rename_i hnone
    exact journalled_of_entry rfl (undoes_createObjectChange hnone _) rfl rfl
  · rename_i prev hprev
    exact journalled_of_entry rfl (undoes_resetObjectChange hprev _) rfl rfl

theorem journalled_getOrNewStateObject (s : StateDB) (a : Address) : Journalled s (s.getOrNewStateObject a).2 := by
  unfold getOrNewStateObject
  split
  · exact Journalled.refl s
  · exact journalled_createObject s a

/-- The object `GetOrNewStateObject` returns is the account's object afterwards. -/
theorem getStateObject_getOrNewStateObject (s : StateDB) (a : Address) :
    (s.getOrNewStateObject a).2.getStateObject a = some (s.getOrNewStateObject a).1 := by
  unfold getOrNewStateObject
  split
  · assumption
  · unfold createObject
    split <;> simp [getStateObject_setStateObject]

theorem journalled_setState (s : StateDB) (a : Address) (k v : Hash) : Journalled s (s.setState a k v) := by
  unfold setState
  dsimp only
  split
  · exact journalled_getOrNewStateObject s a
  · exact (journalled_getOrNewStateObject s a).trans
      (journalled_of_entry rfl (undoes_storageChange (getStateObject_getOrNewStateObject s a) k v) rfl rfl)

theorem journalled_suicide (s : StateDB) (a : Address) : Journalled s (s.suicide a).2 := by
  unfold suicide
  split
  · exact Journalled.refl s
  · rename_i obj hobj
    exact journalled_of_entry rfl (undoes_suicideChange hobj) rfl rfl

theorem journalled_addRefund (s : StateDB) (gas : Nat) : Journalled s (s.addRefund gas) :=
  journalled_of_entry rfl (undoes_refundChange s _) rfl rfl

/-- `SubRefund` succeeds exactly when the counter holds the amount, and then takes it off. -/
theorem subRefund_eq_ok {s t : StateDB} {gas : Nat} (h : s.subRefund gas = .ok t) :
    gas ≤ s.refund ∧ t = { s.append (.refundChange s.refund) with refund := s.refund - gas } := by
  unfold subRefund at h
  dsimp only at h
  split at h
  · nomatch h
  · rename_i hle
    injection h with h
    exact ⟨Nat.le_of_not_lt hle, h.symm⟩

theorem subRefund_of_le {s : StateDB} {gas : Nat} (h : gas ≤ s.refund) :
    s.subRefund gas = .ok { s.append (.refundChange s.refund) with refund := s.refund - gas } := by
  unfold subRefund
  exact if_neg (Nat.not_lt.mpr h)

theorem journalled_subRefund {s t : StateDB} {gas : Nat} (h : s.subRefund gas = .ok t) : Journalled s t := by
  obtain ⟨-, rfl⟩ := subRefund_eq_ok h
  exact journalled_of_entry rfl (undoes_refundChange s _) rfl rfl

/-! ## Snapshots and reverting to them -/

theorem extends_snapshot (s : StateDB) : Extends s s.snapshot.2 :=
  ⟨⟨[], by simp [snapshot], Undoes.of_view rfl⟩, ⟨[⟨s.nextRevisionId, s.journal.length⟩], rfl⟩,
    Nat.le_succ _⟩

theorem RevisionsWF.snapshot {s : StateDB} (hwf : RevisionsWF s) : RevisionsWF s.snapshot.2 := by
  intro r hr
  simp only [StateDB.snapshot, List.mem_append, List.mem_singleton] at hr
  rcases hr with hr | rfl
  · exact Nat.lt_succ_of_lt (hwf r hr)
  · exact Nat.lt_succ_self _

theorem JournalEntry.revert_nextRevisionId (e : JournalEntry) (s : StateDB) :
    (e.revert s).nextRevisionId = s.nextRevisionId := by
  cases e with
  | suicideChange a prev =>
    simp only [JournalEntry.revert]
    split <;> rfl
  | storageChange a k prevalue =>
    simp only [JournalEntry.revert]
    split <;> rfl
  | _ => rfl

/-- Reverting to the snapshot taken at `s`, after changes its journal undoes, gives back what a reader saw at `s`, its
journal and its revisions. -/
theorem revertToSnapshot_of_extends {s t : StateDB} (hwf : RevisionsWF s) (hext : Extends s.snapshot.2 t) :
    ∃ u, t.revertToSnapshot s.snapshot.1 = .ok u ∧ u.view = s.view ∧ u.journal = s.journal ∧
      u.validRevisions = s.validRevisions ∧ u.nextRevisionId = t.nextRevisionId := by
  obtain ⟨⟨es, hj, hu⟩, ⟨rs, hr⟩, -⟩ := hext
  have hrevs : t.validRevisions = s.validRevisions ++ ⟨s.nextRevisionId, s.journal.length⟩ :: rs := by
    rw [hr]
    simp [snapshot]
  -- the search passes the older revisions, whose ids are below the snapshot's, and stops at it
  have hidx : t.validRevisions.findIdx (fun r => decide (r.id ≥ s.nextRevisionId)) = s.validRevisions.length := by
    rw [hrevs, List.findIdx_append, List.findIdx_eq_length_of_false fun r hr => by simpa using hwf r hr]
    simp [List.findIdx_cons]
  have hget : t.validRevisions[s.validRevisions.length]? = some ⟨s.nextRevisionId, s.journal.length⟩ := by
    rw [hrevs, List.getElem?_append_right (le_refl _), Nat.sub_self]
    rfl
  have hjt : t.journal = s.journal ++ es := by
    rw [hj]
    rfl
  refine ⟨{ t.revertJournal s.journal.length with validRevisions := t.validRevisions.take s.validRevisions.length },
    ?_, ?_, ?_, ?_, ?_⟩
  · unfold revertToSnapshot
    dsimp only
    rw [show s.snapshot.1 = s.nextRevisionId from rfl, hidx, hget]
    simp
  · have hdrop : t.journal.drop s.journal.length = es := by rw [hjt, List.drop_left' rfl]
    show (undoEntries JournalEntry.revert (t.journal.drop s.journal.length) t).view = s.view
    rw [hdrop]
    exact hu.view_undo
  · show t.journal.take s.journal.length = s.journal
    rw [hjt, List.take_left' rfl]
  · show t.validRevisions.take s.validRevisions.length = s.validRevisions
    rw [hrevs, List.take_left' rfl]
  · exact undoEntries_keeps JournalEntry.revert StateDB.nextRevisionId JournalEntry.revert_nextRevisionId _ t

end StateDB

end Etherzero.State
