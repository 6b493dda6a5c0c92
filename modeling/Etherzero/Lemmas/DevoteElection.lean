import Mathlib
import Etherzero.Devote.DevoteDB
import Etherzero.Devote.Snapshot
import Etherzero.Rlp.Item
import Etherzero.Lemmas.RlpValue
import Etherzero.Lemmas.RlpWriter

/-!
# Uncast and election

`uncast`'s inner loop is Go's in-place filter without the final truncation: a pass leaves the nodes other than the
witness at the front, in order, and behind them the array as it was (`uncastPass_eq`). So a pass keeps every other
node, but the removed witness can survive behind the kept ones. Election's ranking does not depend on the order in
which the loop over `calculate`'s map visits it: the map holds each candidate once with its weight, and `Less` orders
distinct candidates strictly, so the sorted list is determined by the set of candidates.
-/

namespace Etherzero.Devote

namespace UncastAux

/-- The nodes kept by the first `k` turns of the pass. -/
def kept (w : List UInt8) (nodes : List (List UInt8)) (k : Nat) : List (List UInt8) :=
  (nodes.take k).filter fun s => decide (s ≠ w)

theorem length_kept_le (w : List UInt8) (nodes : List (List UInt8)) (k : Nat) : (kept w nodes k).length ≤ k :=
  (List.length_filter_le _ _).trans (List.length_take_le _ _)

theorem kept_succ (w : List UInt8) {nodes : List (List UInt8)} {k : Nat} (hk : k < nodes.length) :
    kept w nodes (k + 1) = kept w nodes k ++ if nodes[k] ≠ w then [nodes[k]] else [] := by
  rw [kept, kept, List.take_add_one, List.getElem?_eq_getElem hk, Option.toList_some, List.filter_append]
  by_cases hs : nodes[k] ≠ w <;> simp [hs]

/-- The loop after `k` turns: the nodes kept so far, then the array as it was behind them. -/
theorem uncastPass_loop (w : List UInt8) (nodes : List (List UInt8)) : ∀ k, k ≤ nodes.length →
    (List.range k).foldl (uncastStep w) (nodes, 0) =
      (kept w nodes k ++ nodes.drop (kept w nodes k).length, (kept w nodes k).length)
  | 0, _ => by simp [kept]
  | k + 1, hk => by
    rw [List.range_succ, List.foldl_append, uncastPass_loop w nodes k (by omega), List.foldl_cons, List.foldl_nil]
    have hF := length_kept_le w nodes k
    -- the turn reads the array at `k`, which is still the input's node there
    have hget : (kept w nodes k ++ nodes.drop (kept w nodes k).length).getD k [] = nodes[k] := by
      rw [List.getD_eq_getElem _ _ (by simp; omega), List.getElem_append_right (by omega), List.getElem_drop]
      congr 1
      omega
    rw [uncastStep, hget, kept_succ w (by omega)]
    by_cases hs : nodes[k] ≠ w
    · rw [if_pos hs, if_pos hs, List.set_append_right _ _ (le_refl _), Nat.sub_self,
        List.drop_eq_getElem_cons (i := (kept w nodes k).length) (l := nodes) (by omega), List.set_cons_zero]
      simp [List.length_append]
    · rw [if_neg hs, if_neg hs, List.append_nil]

end UncastAux

open UncastAux

/-- A pass of `uncast` is a filter that is not truncated: the nodes other than the witness, in order, then the tail
of the input behind them. -/
theorem uncastPass_eq (w : List UInt8) (nodes : List (List UInt8)) :
    uncastPass w nodes =
      nodes.filter (fun s => decide (s ≠ w)) ++ nodes.drop (nodes.filter fun s => decide (s ≠ w)).length := by
  have h := uncastPass_loop w nodes nodes.length (le_refl _)
  rw [kept, List.take_length] at h
  rw [uncastPass, h]

theorem length_uncastPass (w : List UInt8) (nodes : List (List UInt8)) : (uncastPass w nodes).length = nodes.length := by
  rw [uncastPass_eq, List.length_append, List.length_drop]
  have := List.length_filter_le (fun s => decide (s ≠ w)) nodes
  omega

/-- A pass keeps every node other than its witness. -/
theorem mem_uncastPass {w x : List UInt8} {nodes : List (List UInt8)} (hx : x ∈ nodes) (hw : x ≠ w) :
    x ∈ uncastPass w nodes := by
  rw [uncastPass_eq]
  exact List.mem_append_left _ (List.mem_filter.mpr ⟨hx, by simpa using hw⟩)

/-- A pass brings in no node that was not there. -/
theorem mem_of_mem_uncastPass {w x : List UInt8} {nodes : List (List UInt8)} (hx : x ∈ uncastPass w nodes) :
    x ∈ nodes := by
  rw [uncastPass_eq] at hx
  rcases List.mem_append.mp hx with hx | hx
  · exact (List.mem_filter.mp hx).1
  · exact List.mem_of_mem_drop hx

/-! ## Uncast -/

/-- The passes of `uncast`, one for each witness to remove. -/
theorem uncastPasses_length : ∀ (ws : List (List UInt8)) (nodes : List (List UInt8)),
    (ws.foldl (fun nodes w => uncastPass w nodes) nodes).length = nodes.length
  | [], _ => rfl
  | w :: ws, nodes => by rw [List.foldl_cons, uncastPasses_length ws, length_uncastPass]

theorem mem_uncastPasses : ∀ (ws : List (List UInt8)) {nodes : List (List UInt8)} {x : List UInt8},
    x ∈ nodes → x ∉ ws → x ∈ ws.foldl (fun nodes w => uncastPass w nodes) nodes
  | [], _, _, hx, _ => hx
  | w :: ws, _, _, hx, hws => by
    rw [List.foldl_cons]
    exact mem_uncastPasses ws (mem_uncastPass hx fun h => hws (h ▸ List.mem_cons_self))
      fun h => hws (List.mem_cons_of_mem w h)

theorem mem_of_mem_uncastPasses : ∀ (ws : List (List UInt8)) {nodes : List (List UInt8)} {x : List UInt8},
    x ∈ ws.foldl (fun nodes w => uncastPass w nodes) nodes → x ∈ nodes
  | [], _, _, hx => hx
  | w :: ws, _, _, hx => by
    rw [List.foldl_cons] at hx
    exact mem_of_mem_uncastPass (mem_of_mem_uncastPasses ws hx)

/-- The witnesses of the cycle that sealed no block in it. -/
def idleWitnesses (snap : Snapshot) (cycle : UInt64) (witnesses : List (List UInt8)) : List (List UInt8) :=
  witnesses.filter fun witness => snap.devoteDB.getStatsNumber (putUint64 cycle ++ witness) < 1

/-- `uncast` on a cycle whose witness list reads back: one pass for each idle witness. -/
theorem uncast_eq {snap : Snapshot} {cycle : UInt64} {witnesses : List (List UInt8)}
    (h : snap.devoteDB.getWitnesses cycle = .ok witnesses) (nodes : List (List UInt8)) :
    (uncast snap cycle nodes).1 = (idleWitnesses snap cycle witnesses).foldl (fun nodes w => uncastPass w nodes) nodes := by
  unfold uncast
  rw [h]
  dsimp only
  split
  · rename_i h0
    rw [List.length_eq_zero_iff.mp h0]
    rfl
  · split
    · rename_i h0
      rw [idleWitnesses, List.length_eq_zero_iff.mp (Nat.le_zero.mp h0)]
      rfl
    · rfl

/-- `uncast` keeps the number of candidates: it never truncates the array it compacts. -/
theorem length_uncast (snap : Snapshot) (cycle : UInt64) (nodes : List (List UInt8)) :
    (uncast snap cycle nodes).1.length = nodes.length := by
  unfold uncast
  split
  · rfl
  · dsimp only
    split
    · rfl
    · split
      · rfl
      · exact uncastPasses_length _ nodes

/-- `uncast` keeps every candidate that is not an idle witness of the cycle. -/
theorem mem_uncast {snap : Snapshot} {cycle : UInt64} {witnesses : List (List UInt8)}
    (h : snap.devoteDB.getWitnesses cycle = .ok witnesses) {nodes : List (List UInt8)} {x : List UInt8}
    (hx : x ∈ nodes) (hidle : x ∉ idleWitnesses snap cycle witnesses) : x ∈ (uncast snap cycle nodes).1 := by
  rw [uncast_eq h]
  exact mem_uncastPasses _ hx hidle

/-- `uncast` brings in no candidate. -/
theorem mem_of_mem_uncast {snap : Snapshot} {cycle : UInt64} {nodes : List (List UInt8)} {x : List UInt8}
    (hx : x ∈ (uncast snap cycle nodes).1) : x ∈ nodes := by
  unfold uncast at hx
  split at hx
  · exact hx
  · dsimp only at hx
    split at hx
    · exact hx
    · split at hx
      · exact hx
      · exact mem_of_mem_uncastPasses _ hx

/-! ## Calculate -/

/-- The candidate `calculate` ranks under an id: the id and its weight. -/
def candidate (keccak512 : List UInt8 → List UInt8) (parent : Header) (n : List UInt8) : SortableAddress :=
  ⟨n, weight keccak512 parent.hash n⟩

namespace CalculateAux

theorem lookup_foldl (keccak512 : List UInt8 → List UInt8) (parent : Header) (k : List UInt8) :
    ∀ (nodes : List (List UInt8)) (acc : AList (fun _ : List UInt8 => Nat)),
      (nodes.foldl (fun list masternode => list.insert masternode (weight keccak512 parent.hash masternode))
        acc).lookup k = if k ∈ nodes then some (weight keccak512 parent.hash k) else acc.lookup k
  | [], acc => by simp
  | n :: nodes, acc => by
    rw [List.foldl_cons, lookup_foldl keccak512 parent k nodes]
    by_cases hk : k ∈ nodes
    · simp [hk]
    · by_cases hn : k = n
      · subst hn
        simp [hk, AList.lookup_insert]
      · simp [hk, hn, AList.lookup_insert_ne hn]

end CalculateAux

/-- The entries of `calculate`'s map: each candidate once, with its weight. -/
theorem mem_calculate {keccak512 : List UInt8 → List UInt8} {parent : Header} {nodes : List (List UInt8)}
    {e : Σ _ : List UInt8, Nat} :
    e ∈ (calculate keccak512 parent nodes).entries ↔ e.1 ∈ nodes ∧ e.2 = weight keccak512 parent.hash e.1 := by
  obtain ⟨k, v⟩ := e
  rw [← AList.mem_lookup_iff, calculate, CalculateAux.lookup_foldl]
  by_cases hk : k ∈ nodes
  · simp [hk, eq_comm]
  · simp [hk]

/-- The loop over the map, in any order that visits each entry once, lists each distinct candidate once. -/
theorem calculate_perm {keccak512 : List UInt8 → List UInt8} {order : MapOrder} (horder : order.Perm)
    (i : Nat) (parent : Header) (nodes : List (List UInt8)) :
    ((order i (calculate keccak512 parent nodes).entries).map fun e => SortableAddress.mk e.1 e.2).Perm
      (nodes.dedup.map (candidate keccak512 parent)) := by
  refine ((horder i _).map _).trans ?_
  have hkeys := List.nodupKeys_iff_pairwise.mp (calculate keccak512 parent nodes).nodupKeys
  apply (List.perm_ext_iff_of_nodup ?_ ?_).mpr
  · intro a
    simp only [List.mem_map, List.mem_dedup, candidate]
    constructor
    · rintro ⟨e, he, rfl⟩
      obtain ⟨hn, hw⟩ := mem_calculate.mp he
      exact ⟨e.1, hn, by rw [hw]⟩
    · rintro ⟨n, hn, rfl⟩
      exact ⟨⟨n, weight keccak512 parent.hash n⟩, mem_calculate.mpr ⟨hn, rfl⟩, rfl⟩
  · exact List.Nodup.map_on (fun e _ e' _ h => by
      have := (SortableAddress.mk.injEq _ _ _ _).mp h
      exact Sigma.ext this.1 (heq_of_eq this.2)) (List.NodupKeys.nodup (List.nodupKeys_iff_pairwise.mpr hkeys))
  · exact (List.nodup_dedup nodes).map fun a b h => congrArg SortableAddress.nodeid h

/-! ## The order of `sort.Sort` -/

theorem SortableAddress.less_eq_true {p q : SortableAddress} :
    p.less q = true ↔ q.weight < p.weight ∨ (p.weight = q.weight ∧ q.nodeid < p.nodeid) := by
  unfold SortableAddress.less
  by_cases h₁ : p.weight < q.weight
  · simp [h₁]
    omega
  · by_cases h₂ : p.weight > q.weight
    · simp [h₁, h₂]
    · simp [h₁, h₂]
      omega

/-- `Before p q`: `p` has the larger weight, or the same weight and the larger id or the same. -/
theorem SortableAddress.before_iff {p q : SortableAddress} :
    p.Before q ↔ q.weight ≤ p.weight ∧ (q.weight = p.weight → q.nodeid ≤ p.nodeid) := by
  unfold SortableAddress.Before
  rw [← Bool.not_eq_true, SortableAddress.less_eq_true]
  constructor
  · intro h
    refine ⟨by omega, fun hw => ?_⟩
    exact List.not_lt.mp fun hlt => h (Or.inr ⟨hw, hlt⟩)
  · rintro ⟨hw, hid⟩ (h | ⟨h₁, h₂⟩)
    · omega
    · exact List.not_lt.mpr (hid h₁) h₂

instance : Std.Total SortableAddress.Before where
  total p q := by
    rw [SortableAddress.before_iff, SortableAddress.before_iff]
    rcases Nat.lt_trichotomy p.weight q.weight with h | h | h
    · exact Or.inr ⟨by omega, by omega⟩
    · rcases List.le_total p.nodeid q.nodeid with hid | hid
      · exact Or.inr ⟨by omega, fun _ => hid⟩
      · exact Or.inl ⟨by omega, fun _ => hid⟩
    · exact Or.inl ⟨by omega, by omega⟩

instance : IsTrans SortableAddress SortableAddress.Before where
  trans p q r hpq hqr := by
    rw [SortableAddress.before_iff] at hpq hqr ⊢
    refine ⟨by omega, fun hw => ?_⟩
    have hq : q.weight = p.weight := by omega
    exact List.le_trans (hqr.2 (by omega)) (hpq.2 hq)

theorem SortableAddress.eq_of_before {p q : SortableAddress} (hpq : p.Before q) (hqp : q.Before p) : p = q := by
  rw [SortableAddress.before_iff] at hpq hqp
  have hw : p.weight = q.weight := by omega
  have hid : p.nodeid = q.nodeid := List.le_antisymm (hqp.2 hw) (hpq.2 hw.symm)
  cases p
  cases q
  simp_all

theorem pairwise_sortAddresses (ps : List SortableAddress) : (sortAddresses ps).Pairwise SortableAddress.Before :=
  List.pairwise_insertionSort _ ps

theorem sortAddresses_perm (ps : List SortableAddress) : (sortAddresses ps).Perm ps := List.perm_insertionSort _ ps

/-- `sort.Sort` by `Less` gives one list for all orders of the same candidates. -/
theorem sortAddresses_eq_of_perm {ps qs : List SortableAddress} (h : ps.Perm qs) :
    sortAddresses ps = sortAddresses qs :=
  List.Perm.eq_of_pairwise (fun _ _ _ _ hab hba => SortableAddress.eq_of_before hab hba)
    (pairwise_sortAddresses ps) (pairwise_sortAddresses qs)
    ((sortAddresses_perm ps).trans (h.trans (sortAddresses_perm qs).symm))

/-- The ranking election promises: the larger weight first, and of equal weights the larger id. -/
def SortableAddress.Ranked (p q : SortableAddress) : Prop :=
  q.weight < p.weight ∨ (p.weight = q.weight ∧ q.nodeid < p.nodeid)

instance : DecidableRel SortableAddress.Ranked := fun p q =>
  inferInstanceAs (Decidable (q.weight < p.weight ∨ (p.weight = q.weight ∧ q.nodeid < p.nodeid)))

theorem SortableAddress.ranked_asymm {p q : SortableAddress} (hpq : p.Ranked q) (hqp : q.Ranked p) : False := by
  rcases hpq with h | ⟨hw, hid⟩ <;> rcases hqp with h' | ⟨hw', hid'⟩
  · omega
  · omega
  · omega
  · exact List.lt_asymm hid hid'

/-- Of candidates with distinct ids, the one `sort.Sort` leaves first is the one ranked first. -/
theorem SortableAddress.ranked_of_before {p q : SortableAddress} (h : p.Before q) (hid : p.nodeid ≠ q.nodeid) :
    p.Ranked q := by
  rw [SortableAddress.before_iff] at h
  by_cases hw : q.weight = p.weight
  · exact Or.inr ⟨hw.symm, Std.lt_of_le_of_ne (h.2 hw) (Ne.symm hid)⟩
  · exact Or.inl (by omega)

/-- The distinct candidates, sorted, are ranked. -/
theorem pairwise_ranked_sortAddresses (keccak512 : List UInt8 → List UInt8) (parent : Header)
    (cands : List (List UInt8)) :
    (sortAddresses (cands.dedup.map (candidate keccak512 parent))).Pairwise SortableAddress.Ranked := by
  have hnodup : ((sortAddresses (cands.dedup.map (candidate keccak512 parent))).map SortableAddress.nodeid).Nodup := by
    rw [((sortAddresses_perm _).map _).nodup_iff, List.map_map]
    simpa [Function.comp_def, candidate] using List.nodup_dedup cands
  exact ((pairwise_sortAddresses _).and (List.pairwise_map.mp hnodup)).imp fun h =>
    SortableAddress.ranked_of_before h.1 h.2

/-- Any ranking of the distinct candidates is the sorted list: the ranking is determined by the candidates. -/
theorem eq_sortAddresses_of_ranked {keccak512 : List UInt8 → List UInt8} {parent : Header}
    {cands : List (List UInt8)} {ranked : List SortableAddress}
    (hperm : ranked.Perm (cands.dedup.map (candidate keccak512 parent)))
    (hranked : ranked.Pairwise SortableAddress.Ranked) :
    ranked = sortAddresses (cands.dedup.map (candidate keccak512 parent)) :=
  List.Perm.eq_of_pairwise (fun _ _ _ _ hab hba => (SortableAddress.ranked_asymm hab hba).elim) hranked
    (pairwise_ranked_sortAddresses keccak512 parent cands) (hperm.trans (sortAddresses_perm _).symm)

/-! ## Storing the witnesses -/

/-- The RLP encoding of a witness list: the list of the ids as strings. -/
def witnessesRLP (ws : List (List UInt8)) : List UInt8 := (Rlp.Item.list (ws.map Rlp.Item.str)).encode

/-- The database with `ws` stored as the witnesses of `cycle`. -/
def DevoteDB.storeWitnesses (d : DevoteDB) (cycle : UInt64) (ws : List (List UInt8)) : DevoteDB :=
  { d with cycleTrie := d.cycleTrie.tryUpdate (putUint64 cycle) (witnessesRLP ws) }

/-- `SetWitnesses` always succeeds: a list of strings always encodes. -/
theorem setWitnesses_eq (d : DevoteDB) (cycle : UInt64) (ws : List (List UInt8)) :
    d.setWitnesses cycle ws = .ok (d.storeWitnesses cycle ws) := by
  have hc : DevoteDB.witnessesTy.check (.list (ws.map .bytes)) = true := by
    simp [DevoteDB.witnessesTy, Rlp.Ty.check]
  have hn : (Rlp.Val.list (ws.map .bytes)).nonneg = true := by
    simp [Rlp.Val.nonneg, Rlp.Val.nonnegList_eq_all]
  have hitems : Rlp.Item.encodeList (DevoteDB.witnessesTy.items {} (.list (ws.map .bytes))) = witnessesRLP ws := by
    simp [DevoteDB.witnessesTy, Rlp.Ty.items, witnessesRLP, List.flatMap_map, ← List.map_eq_flatMap]
  rw [DevoteDB.setWitnesses, Rlp.encodeToBytes_eq rfl hc hn, hitems]
  rfl

theorem storeWitnesses_storeWitnesses (d : DevoteDB) (cycle : UInt64) (ws : List (List UInt8)) :
    (d.storeWitnesses cycle ws).storeWitnesses cycle ws = d.storeWitnesses cycle ws := by
  unfold DevoteDB.storeWitnesses TrieMap.tryUpdate
  congr 1
  funext k
  by_cases hk : k = putUint64 cycle <;> simp [hk]

/-! ## Election -/

/-- The witnesses elected from the candidates: the distinct candidates ranked by `Less`, the first `maxWitnessSize`
of them. -/
def electedWitnesses (keccak512 : List UInt8 → List UInt8) (parent : Header) (cands : List (List UInt8))
    (maxWitnessSize : Int) : List (List UInt8) :=
  ((sortAddresses (cands.dedup.map (candidate keccak512 parent))).take maxWitnessSize.toNat).map
    SortableAddress.nodeid

/-- The elected witnesses depend on the candidates only as a set. -/
theorem electedWitnesses_perm (keccak512 : List UInt8 → List UInt8) (parent : Header) {cands cands' : List (List UInt8)}
    (h : cands.Perm cands') (maxWitnessSize : Int) :
    electedWitnesses keccak512 parent cands maxWitnessSize = electedWitnesses keccak512 parent cands' maxWitnessSize := by
  rw [electedWitnesses, electedWitnesses, sortAddresses_eq_of_perm (h.dedup.map _)]

/-- What a turn of the loop does with its candidates `cands` and the witnesses `ws` ranked from them: too few distinct
candidates is an error that leaves the snapshot as it was, and otherwise `ws` is stored for `currentcycle` and
returned. -/
def electionOutcome (snap : Snapshot) (currentcycle : UInt64) (safeSize : Int) (cands ws : List (List UInt8)) :
    Except DevoteErr (List (List UInt8)) × Snapshot :=
  if (cands.dedup.length : Int) < safeSize then
    (.error (.tooFewMasternodes currentcycle cands.dedup.length safeSize), snap)
  else (.ok ws, { snap with devoteDB := snap.devoteDB.storeWitnesses currentcycle ws })

/-- With a bound that is not negative, the cut of the sorted list is a plain `take`. -/
theorem kept_eq_take {α : Type} {m : Int} (hm : 0 ≤ m) (l : List α) :
    (if (l.length : Int) > m then l.take m.toNat else l) = l.take m.toNat := by
  split
  · rfl
  · rw [List.take_of_length_le (by omega)]

section Election

variable (keccak512 : List UInt8 → List UInt8) {order : MapOrder} (horder : order.Perm) (parent : Header)
  {maxWitnessSize : Int} (hmax : 0 ≤ maxWitnessSize) (safeSize : Int) (currentcycle : UInt64)
include horder hmax

/-- One turn of the loop, for any order of the map: too few distinct candidates, or the elected ones stored. -/
theorem electionStep_eq (preisgenesis : Bool) (prevcycle : UInt64) (i : Nat) (snap : Snapshot)
    (nodes : List (List UInt8)) :
    electionStep keccak512 order parent preisgenesis prevcycle currentcycle safeSize maxWitnessSize i snap nodes =
      if ((electionList snap preisgenesis prevcycle nodes).dedup.length : Int) < safeSize then
        (.error (.tooFewMasternodes currentcycle (electionList snap preisgenesis prevcycle nodes).dedup.length
          safeSize), snap)
      else (.ok (electionList snap preisgenesis prevcycle nodes,
          electedWitnesses keccak512 parent (electionList snap preisgenesis prevcycle nodes) maxWitnessSize),
        { snap with devoteDB := snap.devoteDB.storeWitnesses currentcycle (electedWitnesses keccak512 parent
            (electionList snap preisgenesis prevcycle nodes) maxWitnessSize) }) := by
  have hperm := @calculate_perm keccak512 order horder i parent (electionList snap preisgenesis prevcycle nodes)
  have hlen := hperm.length_eq.trans (List.length_map _)
  have hsort := sortAddresses_eq_of_perm hperm
  have hslen := (sortAddresses_perm
    ((electionList snap preisgenesis prevcycle nodes).dedup.map (candidate keccak512 parent))).length_eq.trans
    (List.length_map _)
  simp only [electionStep]
  rw [hlen]
  split
  · rfl
  · -- `maxWitnessSize` is not negative: the slice bound holds, and the cut is a `take`
    rw [if_neg (fun h => absurd h.2 (not_lt.mpr hmax)), hsort, kept_eq_take hmax, setWitnesses_eq]
    rfl

/-- A loop of one turn, as election runs it after a parent outside the genesis cycle. -/
theorem electionLoop_one (preisgenesis : Bool) (prevcycle : UInt64) (i : Nat) (snap : Snapshot)
    (nodes sorted : List (List UInt8)) :
    electionLoop keccak512 order parent preisgenesis prevcycle currentcycle safeSize maxWitnessSize 1 i snap nodes
        sorted =
      electionOutcome snap currentcycle safeSize (electionList snap preisgenesis prevcycle nodes)
        (electedWitnesses keccak512 parent (electionList snap preisgenesis prevcycle nodes) maxWitnessSize) := by
  rw [electionLoop, electionStep_eq keccak512 horder parent hmax, electionOutcome]
  by_cases hsafe : ((electionList snap preisgenesis prevcycle nodes).dedup.length : Int) < safeSize
  · rw [if_pos hsafe, if_pos hsafe]
  · rw [if_neg hsafe, if_neg hsafe]
    rfl

/-- After a parent in the genesis cycle, every turn of the loop elects from the same candidates: the result is one
turn's, the list stored once. -/
theorem electionLoop_genesis (prevcycle : UInt64) (nodes : List (List UInt8)) :
    ∀ (n i : Nat) (snap : Snapshot) (sorted : List (List UInt8)),
      electionLoop keccak512 order parent true prevcycle currentcycle safeSize maxWitnessSize (n + 1) i snap nodes
        sorted = electionOutcome snap currentcycle safeSize nodes (electedWitnesses keccak512 parent nodes maxWitnessSize)
  | n, i, snap, sorted => by
    rw [electionLoop, electionStep_eq keccak512 horder parent hmax, electionOutcome]
    simp only [electionList, if_true]
    by_cases hsafe : (nodes.dedup.length : Int) < safeSize
    · rw [if_pos hsafe, if_pos hsafe]
    · rw [if_neg hsafe, if_neg hsafe]
      dsimp only
      -- the turns after the first store the same list again
      cases n with
      | zero => rfl
      | succ n =>
        rw [electionLoop_genesis prevcycle nodes n (i + 1), electionOutcome, if_neg hsafe,
          storeWitnesses_storeWitnesses]

end Election

/-- The candidates election ranks at a cycle after the parent's: after a parent outside the genesis cycle, those
`uncast` leaves of the previous cycle's witnesses. -/
def electionCandidates (snap : Snapshot) (genesis parent : Header) (nodes : List (List UInt8)) : List (List UInt8) :=
  electionList snap (decide (parent.time / epoch = genesis.time / epoch)) (snap.timeStamp / epoch - 1) nodes

/-- Election at a cycle after the parent's, for any order of the map: one turn's outcome on the candidates. -/
theorem election_eq (keccak512 : List UInt8 → List UInt8) {order : MapOrder} (horder : order.Perm)
    (snap : Snapshot) (genesis parent : Header) (nodes : List (List UInt8)) (safeSize : Int) {maxWitnessSize : Int}
    (hmax : 0 ≤ maxWitnessSize) (hcyc : parent.time / epoch < snap.timeStamp / epoch) :
    election keccak512 order snap genesis parent nodes safeSize maxWitnessSize =
      electionOutcome snap (snap.timeStamp / epoch) safeSize (electionCandidates snap genesis parent nodes)
        (electedWitnesses keccak512 parent (electionCandidates snap genesis parent nodes) maxWitnessSize) := by
  have hlt := UInt64.lt_iff_toNat_lt.mp hcyc
  simp only [election, electionCandidates]
  by_cases hg : parent.time / epoch = genesis.time / epoch
  · -- a turn for every cycle from the genesis cycle on, all alike
    have hturns : (snap.timeStamp / epoch).toNat - (parent.time / epoch).toNat =
        ((snap.timeStamp / epoch).toNat - (parent.time / epoch).toNat - 1) + 1 := by omega
    simp only [hg, decide_true, Bool.not_true, Bool.false_and, Bool.false_eq_true, if_false]
    rw [← hg, hturns, electionLoop_genesis keccak512 horder parent hmax]
    rfl
  · -- one turn, for the cycle before the current one
    have hpos : (1 : UInt64) ≤ snap.timeStamp / epoch :=
      UInt64.le_iff_toNat_le.mpr (by rw [UInt64.toNat_one]; omega)
    have hturns : (snap.timeStamp / epoch).toNat - (snap.timeStamp / epoch - 1).toNat = 1 := by
      rw [UInt64.toNat_sub_of_le _ _ hpos, UInt64.toNat_one]
      omega
    simp only [hg, decide_false, Bool.not_false, Bool.true_and, decide_eq_true hcyc, if_true]
    rw [hturns, electionLoop_one keccak512 horder parent hmax]

/-- Election in the parent's cycle, or before it: the loop runs no turn, nothing is stored and no witness is
returned. -/
theorem election_same_cycle (keccak512 : List UInt8 → List UInt8) (order : MapOrder) (snap : Snapshot)
    (genesis parent : Header) (nodes : List (List UInt8)) (safeSize maxWitnessSize : Int)
    (hcyc : snap.timeStamp / epoch ≤ parent.time / epoch) :
    election keccak512 order snap genesis parent nodes safeSize maxWitnessSize = (.ok [], snap) := by
  have hle := UInt64.le_iff_toNat_le.mp hcyc
  have hnot : ¬ parent.time / epoch < snap.timeStamp / epoch := UInt64.not_lt.mpr hcyc
  simp only [election, hnot, decide_false, Bool.and_false, Bool.false_eq_true, if_false]
  rw [Nat.sub_eq_zero_of_le hle]
  rfl

/-- After a parent in the genesis cycle, election does not depend on the order of the candidates. -/
theorem election_perm_of_genesis (keccak512 : List UInt8 → List UInt8) {order : MapOrder} (horder : order.Perm)
    (snap : Snapshot) (genesis parent : Header) {nodes nodes' : List (List UInt8)} (hperm : nodes.Perm nodes')
    (safeSize : Int) {maxWitnessSize : Int} (hmax : 0 ≤ maxWitnessSize)
    (hg : parent.time / epoch = genesis.time / epoch) :
    election keccak512 order snap genesis parent nodes safeSize maxWitnessSize =
      election keccak512 order snap genesis parent nodes' safeSize maxWitnessSize := by
  by_cases hcyc : parent.time / epoch < snap.timeStamp / epoch
  · have hcands : ∀ ns, electionCandidates snap genesis parent ns = ns := fun ns => by
      simp [electionCandidates, electionList, hg]
    rw [election_eq keccak512 horder snap genesis parent nodes safeSize hmax hcyc,
      election_eq keccak512 horder snap genesis parent nodes' safeSize hmax hcyc, hcands, hcands,
      electedWitnesses_perm keccak512 parent hperm, electionOutcome, electionOutcome, hperm.dedup.length_eq]
  · have hle := UInt64.not_lt.mp hcyc
    rw [election_same_cycle keccak512 order snap genesis parent nodes safeSize maxWitnessSize hle,
      election_same_cycle keccak512 order snap genesis parent nodes' safeSize maxWitnessSize hle]

end Etherzero.Devote
