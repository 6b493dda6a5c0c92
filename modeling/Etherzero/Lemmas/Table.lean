import Mathlib
import Etherzero.P2p.Table
import Etherzero.Lemmas.Discover

/-!
# The node table: what its upkeep keeps

Every operation keeps each bucket within `bucketSize` entries and `maxReplacements` replacements, keeps the IDs of a
bucket's entries and replacements distinct, and keeps in a bucket only nodes of its own log distance other than the
local node (`BucketInv`). A node is only ever put in the bucket of its ID and after a check that its ID is not there
yet, and the list operations `bump`, `pushNode` and `deleteNode` only move, drop or add one node; the IP bookkeeping
changes no list. So every table the operations reach from `newTable` keeps the invariant, and the nodes `closest`
and `lookup` start from have distinct IDs and never include the local node.
-/

namespace Etherzero.Discover

open Etherzero.Netutil Etherzero.KeySort

variable {Node : Type} {nodeID : Node → ID} {nodeIP : Node → IP}

/-! ## The list operations -/

/-- A bump moves the entry with `n`'s ID to the front and puts `n` in its place. -/
theorem bump_eq_some {entries l : List Node} {n : Node} (h : bump nodeID entries n = some l) :
    ∃ (i : Nat) (hi : i < entries.length), nodeID entries[i] = nodeID n ∧
      l = n :: entries.take i ++ entries.drop (i + 1) := by
  obtain ⟨i, hfind, rfl⟩ := Option.map_eq_some_iff.mp h
  obtain ⟨hi, hid, -⟩ := List.findIdx?_eq_some_iff_getElem.mp hfind
  exact ⟨i, hi, by simpa using hid, rfl⟩

theorem bump_eq_none {entries : List Node} {n : Node} (h : bump nodeID entries n = none) :
    nodeID n ∉ entries.map nodeID := by
  have hnone := List.findIdx?_eq_none_iff.mp (Option.map_eq_none_iff.mp h)
  simp only [List.mem_map, not_exists, not_and]
  intro e he hid
  have hne := hnone e he
  simp [hid] at hne

/-- A bump keeps the IDs of the entries, in another order. -/
theorem bump_ids_perm {entries l : List Node} {n : Node} (h : bump nodeID entries n = some l) :
    (l.map nodeID).Perm (entries.map nodeID) := by
  obtain ⟨i, hi, hid, rfl⟩ := bump_eq_some h
  have hmap : entries.map nodeID =
      (entries.take i).map nodeID ++ nodeID entries[i] :: (entries.drop (i + 1)).map nodeID := by
    rw [← List.map_cons, ← List.map_append, ← List.drop_eq_getElem_cons hi, List.take_append_drop]
  rw [hmap, List.map_append, List.map_cons, ← hid]
  exact List.perm_middle.symm

theorem pushNode_fst (list : List Node) (n : Node) (max : Nat) :
    ∃ l, l.Sublist list ∧ (pushNode list n max).1 = n :: l := by
  unfold pushNode
  split_ifs
  · exact ⟨list, List.Sublist.refl _, rfl⟩
  · exact ⟨list.dropLast, List.dropLast_sublist _, rfl⟩

theorem length_pushNode_fst_le {list : List Node} {max : Nat} (hmax : 0 < max) (hlen : list.length ≤ max)
    (n : Node) :
    (pushNode list n max).1.length ≤ max := by
  unfold pushNode
  split_ifs with hroom
  · simp only [List.length_cons]
    omega
  · simp only [List.length_cons, List.length_dropLast]
    omega

theorem pushNode_fst_of_lt {list : List Node} {max : Nat} (hroom : list.length < max) (n : Node) :
    (pushNode list n max).1 = n :: list := by
  rw [pushNode, if_pos hroom]

theorem deleteNode_sublist (list : List Node) (n : Node) : (deleteNode nodeID list n).Sublist list :=
  List.eraseP_sublist

/-- Where the IDs are distinct, deleting `n`'s ID leaves none. -/
theorem not_mem_deleteNode {list : List Node} (hnodup : (list.map nodeID).Nodup) (n : Node) :
    nodeID n ∉ (deleteNode nodeID list n).map nodeID := by
  induction list with
  | nil => simp [deleteNode]
  | cons e es ih =>
    have ⟨he, hes⟩ := List.nodup_cons.mp hnodup
    by_cases hid : nodeID e = nodeID n
    · -- the first node is the one deleted, and no other has its ID
      rw [deleteNode, List.eraseP_cons_of_pos (by simpa using hid)]
      rwa [← hid]
    · rw [deleteNode, List.eraseP_cons_of_neg (by simpa using hid), List.map_cons, List.mem_cons, not_or]
      exact ⟨Ne.symm hid, ih hes⟩

/-- Putting a replacement in place of the last entry, and deleting it from the replacements, keeps each ID once:
the replacement's ID moves from one list to the other and the last entry's leaves. -/
theorem ids_replaceLast_subperm {e r : Node} (he : E.getLast? = some e) (hr : r ∈ R) :
    ((E.set (E.length - 1) r ++ deleteNode nodeID R r).map nodeID).Subperm ((E ++ R).map nodeID) := by
  obtain ⟨E₀, rfl⟩ := List.getLast?_eq_some_iff.mp he
  obtain ⟨a, R₁, R₂, -, ha, rfl, hdel⟩ := List.exists_of_eraseP (p := fun x => nodeID x == nodeID r) hr (by simp)
  have hid : nodeID a = nodeID r := by simpa using ha
  have hset : (E₀ ++ [e]).set ((E₀ ++ [e]).length - 1) r = E₀ ++ [r] := by
    rw [List.set_append_right _ _ (by simp)]
    simp
  rw [hset, deleteNode, hdel]
  -- the replacement's ID takes the place of its old copy, then the last entry's ID is dropped
  have hperm : ((E₀ ++ [r] ++ (R₁ ++ R₂)).map nodeID).Perm ((E₀ ++ (R₁ ++ a :: R₂)).map nodeID) := by
    simp only [List.map_append, List.map_cons, hid, List.append_assoc, List.singleton_append]
    exact List.Perm.append_left _ List.perm_middle.symm
  have hsub : ((E₀ ++ (R₁ ++ a :: R₂)).map nodeID).Sublist ((E₀ ++ [e] ++ (R₁ ++ a :: R₂)).map nodeID) :=
    ((List.sublist_append_left E₀ [e]).append (List.Sublist.refl _)).map nodeID
  exact hperm.subperm.trans hsub.subperm

/-! ## The bucket invariant -/

/-- The ID belongs in bucket `bi` of the table of `selfID`, and is not the local node's. -/
def Placed (selfID : ID) (bi : Fin nBuckets) (id : ID) : Prop := bucketIndex selfID id = bi ∧ id ≠ selfID

variable (nodeID) in
/-- What every operation keeps of a bucket's lists. -/
structure BucketInv (selfID : ID) (bi : Fin nBuckets) (entries replacements : List Node) : Prop where
  entries_le : entries.length ≤ bucketSize
  replacements_le : replacements.length ≤ maxReplacements
  nodup : ((entries ++ replacements).map nodeID).Nodup
  placed : ∀ id ∈ (entries ++ replacements).map nodeID, Placed selfID bi id

variable {selfID : ID} {bi : Fin nBuckets} {E R E' R' : List Node}

theorem bucketInv_nil : BucketInv nodeID selfID bi [] [] :=
  ⟨Nat.zero_le _, Nat.zero_le _, List.nodup_nil, fun _ h => absurd h List.not_mem_nil⟩

/-- Lists whose IDs are among the old ones, each once, keep the invariant within the bounds. -/
theorem BucketInv.of_subperm (h : BucketInv nodeID selfID bi E R)
    (hsub : ((E' ++ R').map nodeID).Subperm ((E ++ R).map nodeID))
    (hE : E'.length ≤ bucketSize) (hR : R'.length ≤ maxReplacements) : BucketInv nodeID selfID bi E' R' := by
  obtain ⟨l, hperm, hl⟩ := hsub
  exact ⟨hE, hR, hperm.nodup_iff.mp (h.nodup.sublist hl),
    fun id hid => h.placed id (hl.subset (hperm.symm.subset hid))⟩

theorem BucketInv.of_sublist (h : BucketInv nodeID selfID bi E R) (hE : E'.Sublist E) (hR : R'.Sublist R) :
    BucketInv nodeID selfID bi E' R' :=
  h.of_subperm ((List.Sublist.append hE hR).map nodeID).subperm
    (hE.length_le.trans h.entries_le) (hR.length_le.trans h.replacements_le)

/-- A node added to lists taken from the old ones keeps the invariant when its ID belongs in the bucket and is not
among those lists, and the new lists are within the bounds. -/
theorem BucketInv.insert (h : BucketInv nodeID selfID bi E R) {n : Node} {E'' R'' : List Node}
    (hn : Placed selfID bi (nodeID n)) (hsub : (E' ++ R').Sublist (E ++ R)) (hnotin : nodeID n ∉ (E' ++ R').map nodeID)
    (hperm : ((E'' ++ R'').map nodeID).Perm (nodeID n :: (E' ++ R').map nodeID))
    (hE : E''.length ≤ bucketSize) (hR : R''.length ≤ maxReplacements) : BucketInv nodeID selfID bi E'' R'' := by
  have hnodup : ((E' ++ R').map nodeID).Nodup := h.nodup.sublist (hsub.map nodeID)
  refine ⟨hE, hR, hperm.nodup_iff.mpr (List.nodup_cons.mpr ⟨hnotin, hnodup⟩), fun id hid => ?_⟩
  rcases List.mem_cons.mp (hperm.subset hid) with rfl | hid
  · exact hn
  · exact h.placed id ((hsub.map nodeID).subset hid)

/-! ## The table invariant -/

variable {tab tab' : NodeTable Node} {bi : Fin nBuckets} {n : Node}

variable (nodeID) in
/-- Every bucket keeps `BucketInv` for the table's own node. -/
def NodeTable.Inv (tab : NodeTable Node) : Prop :=
  ∀ bi, BucketInv nodeID (nodeID tab.self) bi (tab.buckets.get bi).entries (tab.buckets.get bi).replacements

/-- Two tables with the same local node and the same lists in every bucket: the IP bookkeeping changes no more. -/
structure NodeTable.SameLists (tab tab' : NodeTable Node) : Prop where
  self : tab'.self = tab.self
  entries : ∀ bi, (tab'.buckets.get bi).entries = (tab.buckets.get bi).entries
  replacements : ∀ bi, (tab'.buckets.get bi).replacements = (tab.buckets.get bi).replacements

theorem NodeTable.SameLists.refl (tab : NodeTable Node) : tab.SameLists tab := ⟨rfl, fun _ => rfl, fun _ => rfl⟩

theorem NodeTable.SameLists.trans {tab'' : NodeTable Node} (h₁ : tab.SameLists tab') (h₂ : tab'.SameLists tab'') :
    tab.SameLists tab'' :=
  ⟨h₂.self.trans h₁.self, fun bi => (h₂.entries bi).trans (h₁.entries bi),
    fun bi => (h₂.replacements bi).trans (h₁.replacements bi)⟩

theorem NodeTable.Inv.of_sameLists (h : tab.Inv nodeID) (hs : tab.SameLists tab') : tab'.Inv nodeID := by
  intro bi
  rw [hs.self, hs.entries, hs.replacements]
  exact h bi

@[simp] theorem setBucket_self (b : TableBucket Node) : (tab.setBucket bi b).self = tab.self := rfl

@[simp] theorem setBucket_get (b : TableBucket Node) (j : Fin nBuckets) :
    (tab.setBucket bi b).buckets.get j = if j = bi then b else tab.buckets.get j := by
  simp [NodeTable.setBucket, Vector.get_eq_getElem, Vector.getElem_set, Fin.ext_iff, eq_comm]

theorem NodeTable.Inv.setBucket (h : tab.Inv nodeID) {b : TableBucket Node}
    (hb : BucketInv nodeID (nodeID tab.self) bi b.entries b.replacements) : (tab.setBucket bi b).Inv nodeID := by
  intro j
  rw [setBucket_self, setBucket_get]
  split_ifs with hj
  · exact hj ▸ hb
  · exact h j

/-- The table's own IPs are not lists. -/
theorem NodeTable.SameLists.with_ips (h : tab.SameLists tab') (ips : DistinctNetSet) :
    tab.SameLists { tab' with ips := ips } :=
  ⟨h.self, h.entries, h.replacements⟩

/-- A new bucket's IPs with the old lists. -/
theorem sameLists_setBucket_ips (ips : DistinctNetSet) :
    tab.SameLists (tab.setBucket bi { tab.buckets.get bi with ips := ips }) := by
  refine ⟨rfl, fun j => ?_, fun j => ?_⟩ <;>
  · rw [setBucket_get]
    split_ifs with hj
    · rw [hj]
    · rfl

theorem sameLists_addIP (ip : IP) : tab.SameLists (tab.addIP bi ip).1 := by
  unfold NodeTable.addIP
  split_ifs
  · -- a LAN address is not counted
    exact ⟨rfl, fun _ => rfl, fun _ => rfl⟩
  · dsimp only
    split_ifs
    · exact ⟨rfl, fun _ => rfl, fun _ => rfl⟩
    · exact ⟨rfl, fun _ => rfl, fun _ => rfl⟩
    · exact (sameLists_setBucket_ips _).with_ips _

theorem sameLists_removeIP (ip : IP) : tab.SameLists (tab.removeIP bi ip) := by
  unfold NodeTable.removeIP
  split_ifs
  · exact ⟨rfl, fun _ => rfl, fun _ => rfl⟩
  · exact (sameLists_setBucket_ips _).with_ips _

/-! ## Each operation keeps the invariant -/

theorem NodeTable.Inv.deleteInBucket (h : tab.Inv nodeID) (bi : Fin nBuckets) (n : Node) :
    (tab.deleteInBucket nodeID nodeIP bi n).Inv nodeID := by
  unfold NodeTable.deleteInBucket
  refine NodeTable.Inv.of_sameLists ?_ (sameLists_removeIP _)
  exact h.setBucket ((h bi).of_sublist (deleteNode_sublist _ _) (List.Sublist.refl _))

/-- A bump keeps the bucket's IDs; an addition, when there is room, puts a node whose ID is not among the entries
in front of them and deletes it from the replacements. -/
theorem NodeTable.Inv.bumpOrAdd (h : tab.Inv nodeID) (hn : Placed (nodeID tab.self) bi (nodeID n)) :
    (tab.bumpOrAdd nodeID nodeIP bi n).1.Inv nodeID := by
  have hb := h bi
  unfold NodeTable.bumpOrAdd
  dsimp only
  split
  · -- the entry with the node's ID goes to the front
    rename_i entries hbump
    have hperm := bump_ids_perm hbump
    refine h.setBucket (hb.of_subperm ?_ ?_ hb.replacements_le)
    · simpa only [List.map_append] using (hperm.append_right _).subperm
    · rw [← List.length_map nodeID, hperm.length_eq, List.length_map]
      exact hb.entries_le
  · rename_i hbump
    have hsame : tab.SameLists (tab.addIP bi (nodeIP n)).1 := sameLists_addIP (nodeIP n)
    split_ifs with hfull hadded
    · exact h
    · exact h.of_sameLists hsame
    · -- the node goes in front of the entries, which have room, and leaves the replacements
      refine (h.of_sameLists hsame).setBucket ?_
      generalize (tab.addIP bi (nodeIP n)).1 = tab' at hsame ⊢
      show BucketInv nodeID (nodeID tab'.self) bi (pushNode (tab'.buckets.get bi).entries n bucketSize).1
        (deleteNode nodeID (tab'.buckets.get bi).replacements n)
      have hroom : (tab.buckets.get bi).entries.length < bucketSize := Nat.lt_of_not_le hfull
      rw [hsame.self, hsame.entries, hsame.replacements, pushNode_fst_of_lt hroom]
      have hnodupR : ((tab.buckets.get bi).replacements.map nodeID).Nodup :=
        (List.map_append ▸ hb.nodup).of_append_right
      have hdel := @deleteNode_sublist Node nodeID (tab.buckets.get bi).replacements n
      refine hb.insert hn ((List.Sublist.refl _).append hdel) ?_ (List.Perm.of_eq (by simp))
        (Nat.succ_le_of_lt hroom) (hdel.length_le.trans hb.replacements_le)
      rw [List.map_append, List.mem_append, not_or]
      exact ⟨bump_eq_none hbump, not_mem_deleteNode hnodupR n⟩

/-- When `bumpOrAdd` turns the node away, the lists are as they were and the node's ID is not among the entries. -/
theorem bumpOrAdd_eq_false (h : (tab.bumpOrAdd nodeID nodeIP bi n).2 = false) :
    tab.SameLists (tab.bumpOrAdd nodeID nodeIP bi n).1 ∧ nodeID n ∉ (tab.buckets.get bi).entries.map nodeID := by
  unfold NodeTable.bumpOrAdd at h ⊢
  dsimp only at h ⊢
  rcases hbump : bump nodeID (tab.buckets.get bi).entries n with _ | entries
  · rw [hbump] at h
    dsimp only at h ⊢
    refine ⟨?_, bump_eq_none hbump⟩
    split_ifs at h ⊢ with hfull hadded
    · exact NodeTable.SameLists.refl tab
    · exact sameLists_addIP (nodeIP n)
  · -- a bump keeps the node
    rw [hbump] at h
    nomatch h

theorem NodeTable.Inv.addReplacement (h : tab.Inv nodeID) (hn : Placed (nodeID tab.self) bi (nodeID n))
    (hnotin : nodeID n ∉ (tab.buckets.get bi).entries.map nodeID) :
    (tab.addReplacement nodeID nodeIP bi n).Inv nodeID := by
  have hb := h bi
  unfold NodeTable.addReplacement
  split_ifs with hany
  · exact h
  · have hsame : tab.SameLists (tab.addIP bi (nodeIP n)).1 := sameLists_addIP (nodeIP n)
    dsimp only
    split_ifs with hadded
    · exact h.of_sameLists hsame
    · generalize (tab.addIP bi (nodeIP n)).1 = tab' at hsame ⊢
      obtain ⟨l, hl, hpush⟩ := pushNode_fst (tab'.buckets.get bi).replacements n maxReplacements
      have hlen := length_pushNode_fst_le (by decide : 0 < maxReplacements)
        ((hsame.replacements bi).symm ▸ hb.replacements_le) n
      rcases hp : pushNode (tab'.buckets.get bi).replacements n maxReplacements with ⟨repl, removed⟩
      rw [hp] at hpush hlen
      dsimp only at hpush hlen ⊢
      -- the node goes in front of the replacements; the IP of the one pushed out is given back
      have hinv : (tab'.setBucket bi { tab'.buckets.get bi with replacements := repl }).Inv nodeID := by
        refine (h.of_sameLists hsame).setBucket ?_
        show BucketInv nodeID (nodeID tab'.self) bi (tab'.buckets.get bi).entries repl
        rw [hsame.self, hsame.entries, hpush]
        rw [hsame.replacements] at hl
        refine hb.insert hn ((List.Sublist.refl _).append hl) ?_ ?_ hb.entries_le (hpush ▸ hlen)
        · rw [List.map_append, List.mem_append, not_or]
          refine ⟨hnotin, fun hmem => hany ?_⟩
          obtain ⟨x, hx, hxid⟩ := List.mem_map.mp hmem
          exact List.any_eq_true.mpr ⟨x, hl.subset hx, by simp [hxid]⟩
        · rw [List.map_append, List.map_cons, List.map_append]
          exact List.perm_middle
      cases removed with
      | none => exact hinv
      | some r => exact hinv.of_sameLists (sameLists_removeIP _)

/-- A replacement takes the place of the last entry, which leaves, or the entry is deleted when there is none. -/
theorem NodeTable.Inv.replace (h : tab.Inv nodeID) (bi : Fin nBuckets) (last : Node) (ri : Nat) :
    (tab.replace nodeID nodeIP bi last ri).1.Inv nodeID := by
  have hb := h bi
  unfold NodeTable.replace
  dsimp only
  split
  · exact h
  · rename_i e hlast
    split_ifs with hmoved
    · exact h
    · split
      · exact h.deleteInBucket bi last
      · rename_i r₀ rs hrepl
        rw [hrepl] at hb
        refine (h.setBucket ?_).of_sameLists (sameLists_removeIP _)
        exact hb.of_subperm (ids_replaceLast_subperm hlast (List.get_mem _ _))
          (by rw [List.length_set]; exact hb.entries_le) ((deleteNode_sublist _ _).length_le.trans hb.replacements_le)

/-- `add` puts the node in the bucket of its ID, as an entry or else as a replacement, and never the local node. -/
theorem NodeTable.Inv.add (h : tab.Inv nodeID) (n : Node) : (tab.add nodeID nodeIP n).Inv nodeID := by
  unfold NodeTable.add
  split_ifs with hself
  · exact h
  · have hn : Placed (nodeID tab.self) (tab.bucket nodeID (nodeID n)) (nodeID n) := ⟨rfl, hself⟩
    dsimp only
    split_ifs with hadded
    · exact h.bumpOrAdd hn
    · -- turned away from the entries: the lists are as they were, and the node is not among the entries
      obtain ⟨hsame, hnotin⟩ := bumpOrAdd_eq_false (Bool.eq_false_iff.mpr hadded)
      refine (h.of_sameLists hsame).addReplacement ?_ ?_
      · rw [hsame.self]
        exact hn
      · rwa [hsame.entries]

theorem NodeTable.Inv.addThroughPing (h : tab.Inv nodeID) (n : Node) :
    (tab.addThroughPing nodeID nodeIP n).Inv nodeID := by
  unfold NodeTable.addThroughPing
  split_ifs
  · exact h
  · exact h.add n

theorem NodeTable.Inv.stuff (h : tab.Inv nodeID) (nodes : List Node) :
    (tab.stuff nodeID nodeIP nodes).Inv nodeID := by
  unfold NodeTable.stuff
  refine List.foldlRecOn (motive := fun t : NodeTable Node => t.Inv nodeID) nodes _ h fun t ht n _ => ?_
  dsimp only
  split_ifs with hself
  · exact ht
  · exact ht.bumpOrAdd ⟨rfl, hself⟩
  · exact ht

theorem NodeTable.Inv.delete (h : tab.Inv nodeID) (n : Node) : (tab.delete nodeID nodeIP n).Inv nodeID :=
  h.deleteInBucket _ n

theorem NodeTable.Inv.revalidate (h : tab.Inv nodeID) (bi : Fin nBuckets) (last : Node) (pong : Bool) (ri : Nat) :
    (tab.revalidate nodeID nodeIP bi last pong ri).Inv nodeID := by
  have hb := h bi
  unfold NodeTable.revalidate
  split_ifs
  · -- a pong bumps the node, which keeps the bucket's IDs
    dsimp only
    split
    · rename_i entries hbump
      have hperm := bump_ids_perm hbump
      refine h.setBucket (hb.of_subperm ?_ ?_ hb.replacements_le)
      · simpa only [List.map_append] using (hperm.append_right _).subperm
      · rw [← List.length_map nodeID, hperm.length_eq, List.length_map]
        exact hb.entries_le
    · exact h
  · exact h.replace bi last ri

theorem NodeTable.Inv.apply (h : tab.Inv nodeID) (op : TableOp Node) : (tab.apply nodeID nodeIP op).Inv nodeID := by
  cases op with
  | add n => exact h.add n
  | addThroughPing n => exact h.addThroughPing n
  | stuff nodes => exact h.stuff nodes
  | delete n => exact h.delete n
  | revalidate bi last pong ri => exact h.revalidate bi last pong ri
  | setInitDone => exact h

/-- The run lemma: the invariant holds after every sequence of operations. -/
theorem NodeTable.Inv.run (h : tab.Inv nodeID) (ops : List (TableOp Node)) :
    (tab.run nodeID nodeIP ops).Inv nodeID := by
  induction ops generalizing tab with
  | nil => exact h
  | cons op ops ih => exact ih (h.apply op)

theorem inv_newTable (self : Node) : (newTable self).Inv nodeID := by
  intro bi
  rw [newTable, Vector.get_replicate]
  exact bucketInv_nil

/-! ## The local node -/

@[simp] theorem self_addIP (ip : IP) : (tab.addIP bi ip).1.self = tab.self := (sameLists_addIP ip).self

@[simp] theorem self_removeIP (ip : IP) : (tab.removeIP bi ip).self = tab.self := (sameLists_removeIP ip).self

@[simp] theorem self_deleteInBucket : (tab.deleteInBucket nodeID nodeIP bi n).self = tab.self := by
  simp [NodeTable.deleteInBucket]

@[simp] theorem self_bumpOrAdd : (tab.bumpOrAdd nodeID nodeIP bi n).1.self = tab.self := by
  unfold NodeTable.bumpOrAdd
  dsimp only
  split
  · rfl
  · split_ifs <;> simp

@[simp] theorem self_addReplacement : (tab.addReplacement nodeID nodeIP bi n).self = tab.self := by
  unfold NodeTable.addReplacement
  split_ifs
  · rfl
  · dsimp only
    split_ifs
    · simp
    · split <;> simp

@[simp] theorem self_replace (last : Node) (ri : Nat) : (tab.replace nodeID nodeIP bi last ri).1.self = tab.self := by
  unfold NodeTable.replace
  dsimp only
  split
  · rfl
  · split_ifs
    · rfl
    · split <;> simp

theorem self_apply (op : TableOp Node) : (tab.apply nodeID nodeIP op).self = tab.self := by
  cases op with
  | add n =>
    simp only [NodeTable.apply, NodeTable.add]
    split_ifs <;> simp
  | addThroughPing n =>
    simp only [NodeTable.apply, NodeTable.addThroughPing, NodeTable.add]
    split_ifs <;> simp
  | stuff nodes =>
    simp only [NodeTable.apply, NodeTable.stuff]
    refine List.foldlRecOn (motive := fun t : NodeTable Node => t.self = tab.self) nodes _ rfl fun t ht n _ => ?_
    split_ifs <;> simp [ht]
  | delete n => simp [NodeTable.apply, NodeTable.delete]
  | revalidate bi last pong ri =>
    simp only [NodeTable.apply, NodeTable.revalidate]
    split_ifs
    · split <;> simp
    · simp
  | setInitDone => rfl

theorem self_run (ops : List (TableOp Node)) : (tab.run nodeID nodeIP ops).self = tab.self := by
  induction ops generalizing tab with
  | nil => rfl
  | cons op ops ih => exact ih.trans (self_apply op)

/-! ## What `closest` reads -/

theorem toList_buckets (tab : NodeTable Node) : tab.buckets.toList = (List.finRange nBuckets).map tab.buckets.get := by
  apply List.ext_getElem
  · simp
  · intro i _ _
    simp [Vector.get_eq_getElem]

/-- The IDs of the nodes `closest` reads, bucket by bucket. -/
theorem nodes_toTable (tab : NodeTable Node) :
    tab.toTable.nodes.map nodeID = (List.finRange nBuckets).flatMap fun j => (tab.buckets.get j).entries.map nodeID := by
  rw [Table.nodes, NodeTable.toTable, toList_buckets, List.map_flatMap]
  simp [List.flatMap_map]

/-- Under the invariant the table's nodes have distinct IDs and none is the local node: within a bucket by
`BucketInv`, and across buckets since each ID has one bucket. -/
theorem NodeTable.Inv.nodes_nodup (h : tab.Inv nodeID) :
    (tab.toTable.nodes.map nodeID).Nodup ∧ nodeID tab.self ∉ tab.toTable.nodes.map nodeID := by
  have hentries : ∀ j, ∀ id ∈ (tab.buckets.get j).entries.map nodeID, Placed (nodeID tab.self) j id :=
    fun j id hid => (h j).placed id (by rw [List.map_append]; exact List.mem_append_left _ hid)
  rw [nodes_toTable]
  refine ⟨List.nodup_flatMap.mpr ⟨fun j _ => (List.map_append ▸ (h j).nodup).of_append_left, ?_⟩, ?_⟩
  · -- an ID in two buckets would have two bucket indices
    refine (List.nodup_finRange nBuckets).imp fun {j k} hjk => ?_
    intro id hj hk
    exact hjk (((hentries j id hj).1).symm.trans (hentries k id hk).1)
  · intro hself
    obtain ⟨j, -, hj⟩ := List.mem_flatMap.mp hself
    exact (hentries j _ hj).2 rfl

/-- So the nodes `closest` returns from such a table have distinct IDs and never include the local node: they are
the first of a sort of the table's nodes. -/
theorem NodeTable.Inv.closest_nodup (h : tab.Inv nodeID) (target : ID) (k : Nat) :
    ((tab.toTable.closest nodeID target k).entries.map nodeID).Nodup ∧
      nodeID tab.self ∉ (tab.toTable.closest nodeID target k).entries.map nodeID := by
  obtain ⟨hnodup, hself⟩ := h.nodes_nodup
  obtain ⟨-, -, hentries⟩ := @foldl_push_nil Node nodeID tab.toTable.nodes target k
  have hperm := (@isStableSort_sortByKey Node (byDist nodeID target) tab.toTable.nodes).perm.map nodeID
  rw [closest_eq_foldl, hentries, List.map_take]
  have hsub := List.take_sublist k ((sortByKey (byDist nodeID target) tab.toTable.nodes).map nodeID)
  exact ⟨(hperm.nodup_iff.mpr hnodup).sublist hsub, fun hmem => hself (hperm.subset (hsub.subset hmem))⟩

end Etherzero.Discover
