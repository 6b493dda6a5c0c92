import Mathlib
import Etherzero.Theorems.Table

/-!
# What ReadRandomNodes writes and what it returns

The shuffle only swaps buckets, so the fill loop walks the nonempty buckets in some order, whatever the draws of
`tab.rand`. Each turn moves the head of one bucket to the buffer and drops a bucket it empties, so what the loop has
written and what the buckets still hold are together the table's nodes: the nodes written are distinct nodes of the
table, as many as the buffer and the table both hold.

The count does not follow: it is `i + 1` where the loop ends. That is right when the loop breaks on the last node.
When the buffer runs out first, `i` is already `len(buf)`, and the count is `len(buf) + 1`: one more than the nodes
written, and more than the buffer holds.
-/

namespace Etherzero.Discover

open Etherzero.Netutil

variable {Node : Type} (nodeID : Node → ID)

/-! ## The shuffle -/

/-- However `tab.rand` draws, the shuffle leaves the buckets it was given, in some order. -/
theorem shuffleBuckets_perm (draws : Nat → Nat) (i : Nat) (buckets : Array (List Node)) :
    (shuffleBuckets draws i buckets).toList.Perm buckets.toList := by
  induction i generalizing buckets with
  | zero => rfl
  | succ i ih =>
    rw [shuffleBuckets]
    split
    · exact (ih _).trans (Array.swap_perm _ _).toList
    · rfl

/-! ## One turn of the fill loop -/

/-- Every bucket the loop walks holds an entry. -/
def Filled (buckets : List (List Node)) : Prop := ∀ b ∈ buckets, b ≠ []

/-- The bucket under a cursor below their count has a head. -/
theorem Filled.head {buckets : List (List Node)} {j : Nat} (hf : Filled buckets) (hj : j < buckets.length) :
    ∃ n rest, buckets[j]? = some (n :: rest) := by
  obtain ⟨n, rest, he⟩ := List.exists_cons_of_ne_nil (hf _ (List.getElem_mem hj))
  exact ⟨n, rest, by rw [List.getElem?_eq_getElem hj, he]⟩

/-- Taking the head `n` of bucket `j` leaves the nodes of the buckets with `n` in front. -/
theorem flatten_set_perm {buckets : List (List Node)} {j : Nat} {n : Node} {rest : List Node}
    (h : buckets[j]? = some (n :: rest)) : (n :: (buckets.set j rest).flatten).Perm buckets.flatten := by
  obtain ⟨hj, hb⟩ := List.getElem?_eq_some_iff.mp h
  have hsplit : buckets = buckets.take j ++ (n :: rest) :: buckets.drop (j + 1) := by
    rw [← hb, ← List.drop_eq_getElem_cons hj, List.take_append_drop]
  rw [List.set_eq_take_append_cons_drop, if_pos hj]
  conv_rhs => rw [hsplit]
  simp only [List.flatten_append, List.flatten_cons, List.cons_append]
  exact List.perm_middle.symm

/-- Dropping an empty bucket leaves the nodes as they are. -/
theorem flatten_eraseIdx_of_nil {buckets : List (List Node)} {j : Nat} (h : buckets[j]? = some []) :
    (buckets.eraseIdx j).flatten = buckets.flatten := by
  obtain ⟨hj, hb⟩ := List.getElem?_eq_some_iff.mp h
  have hsplit : buckets = buckets.take j ++ [] :: buckets.drop (j + 1) := by
    rw [← hb, ← List.drop_eq_getElem_cons hj, List.take_append_drop]
  rw [List.eraseIdx_eq_take_drop_succ]
  conv_rhs => rw [hsplit]
  simp

section Turn

variable {buckets : List (List Node)} {j : Nat} {n : Node} {rest : List Node}

/-- After a turn every bucket left still holds an entry: the one the turn took from keeps the rest, or leaves. -/
theorem Filled.next (hf : Filled buckets) (h : buckets[j]? = some (n :: rest)) :
    Filled (if (n :: rest).length = 1 then (buckets.set j rest).eraseIdx j else buckets.set j rest) := by
  intro b hb
  split at hb
  · rw [List.eraseIdx_set_eq] at hb
    exact hf b (List.mem_of_mem_eraseIdx hb)
  · rcases List.mem_or_eq_of_mem_set hb with hb | rfl
    · exact hf b hb
    · -- the rest of a bucket of more than one entry
      rintro rfl
      simp_all

/-- Dropping the bucket a turn emptied leaves the nodes the turn left. -/
theorem flatten_next (h : buckets[j]? = some (n :: rest)) :
    (if (n :: rest).length = 1 then (buckets.set j rest).eraseIdx j else buckets.set j rest).flatten =
      (buckets.set j rest).flatten := by
  split
  · have hj : j < buckets.length := (List.getElem?_eq_some_iff.mp h).1
    apply flatten_eraseIdx_of_nil
    rw [List.getElem?_set_self hj]
    simp_all
  · rfl

/-- One turn of the loop: the head of bucket `j` goes to `buf[i]`, and the loop goes on over what the buckets hold
then, unless none is left. -/
theorem fillBuf_succ {next : List (List Node)} (k i : Nat) (h : buckets[j]? = some (n :: rest))
    (hnext : (if (n :: rest).length = 1 then (buckets.set j rest).eraseIdx j else buckets.set j rest) = next) :
    fillBuf (k + 1) i j buckets =
      if next.length = 0 then ([n], i)
      else
        (n :: (fillBuf k (i + 1) ((j + 1) % next.length) next).1,
          (fillBuf k (i + 1) ((j + 1) % next.length) next).2) := by
  subst hnext
  rw [fillBuf, h]

end Turn

/-! ## The whole loop -/

/-- With `k` slots left, the loop writes distinct nodes of the buckets, `k` of them or all, and ends at `i` plus one
less than it wrote when it runs out of nodes, or at `i + k` when it runs out of slots. -/
theorem fillBuf_spec (k : Nat) : ∀ (i j : Nat) (buckets : List (List Node)), Filled buckets → j < buckets.length →
    (fillBuf k i j buckets).1.Subperm buckets.flatten ∧
      (fillBuf k i j buckets).1.length = min k buckets.flatten.length ∧
      (fillBuf k i j buckets).2 + 1 = i + if k < buckets.flatten.length then k + 1 else buckets.flatten.length := by
  -- induction on the slots left; the buckets and the cursor change at every turn
  induction k with
  | zero =>
    intro i j buckets hf hj
    obtain ⟨n, rest, h⟩ := hf.head hj
    have hpos : 0 < buckets.flatten.length := by
      rw [← (flatten_set_perm h).length_eq]
      exact Nat.succ_pos _
    rw [fillBuf]
    exact ⟨List.nil_subperm, by simp, by rw [if_pos hpos]⟩
  | succ k ih =>
    intro i j buckets hf hj
    obtain ⟨n, rest, h⟩ := hf.head hj
    have hfilled := hf.next h
    have hperm := flatten_next h ▸ flatten_set_perm h
    generalize hnext : (if (n :: rest).length = 1 then (buckets.set j rest).eraseIdx j else buckets.set j rest) = next
      at hperm hfilled
    have hlen : buckets.flatten.length = next.flatten.length + 1 := by rw [← hperm.length_eq]; rfl
    rw [fillBuf_succ k i h hnext]
    split
    · -- the last node went to the buffer, and the loop breaks
      have hnil : next = [] := List.eq_nil_of_length_eq_zero ‹_›
      subst hnil
      have hone : buckets.flatten.length = 1 := hlen
      refine ⟨hperm.subperm, by simp [hone], by rw [hone, if_neg (by omega)]⟩
    · obtain ⟨hs, hl, hc⟩ := ih (i + 1) ((j + 1) % next.length) next hfilled (Nat.mod_lt _ (by omega))
      refine ⟨((List.subperm_cons n).mpr hs).trans hperm.subperm, ?_, ?_⟩
      · rw [List.length_cons, hl, hlen]
        omega
      · rw [hc, hlen]
        split_ifs <;> omega

/-- A buffer of one slot and a bucket of two nodes: the loop writes one node and ends at `i = 1`. -/
example : fillBuf 1 0 0 [[1, 2]] = ([1], 1) := by decide

/-! ## ReadRandomNodes -/

/-- The image of a list under a map has no repeat where the image of a longer list has none. -/
theorem nodup_map_of_subperm {α β : Type} {f : α → β} {l₁ l₂ : List α} (h : l₁.Subperm l₂)
    (hd : (l₂.map f).Nodup) : (l₁.map f).Nodup := by
  obtain ⟨l, hp, hs⟩ := h
  exact (hp.map f).nodup_iff.mp (hd.sublist (hs.map f))

/-- The nonempty buckets' entries are the table's nodes. -/
theorem flatten_nonempty_entries (tab : NodeTable Node) :
    ((tab.buckets.toList.filter fun b => b.entries.length > 0).map (·.entries)).flatten = tab.toTable.nodes := by
  rw [Table.nodes, NodeTable.toTable, List.flatMap_map]
  induction tab.buckets.toList with
  | nil => rfl
  | cons b rest ih =>
    rw [List.filter_cons, List.flatMap_cons, ← ih]
    split
    · rfl
    · simp_all

theorem filled_nonempty_entries (tab : NodeTable Node) :
    Filled ((tab.buckets.toList.filter fun b => b.entries.length > 0).map (·.entries)) := by
  intro b hb
  obtain ⟨c, hc, rfl⟩ := List.mem_map.mp hb
  exact List.ne_nil_of_length_pos (by simpa using (List.mem_filter.mp hc).2)

theorem len_eq_length_nodes (tab : NodeTable Node) : tab.len = tab.toTable.nodes.length := by
  rw [NodeTable.len, Table.nodes, NodeTable.toTable, List.flatMap_map, List.length_flatMap]

/-- On a table past its first refresh, whatever the draws: `ReadRandomNodes` writes nodes of the table, as many as
the buffer and the table both hold, and returns one more than the buffer holds when the table holds more. -/
theorem readRandomNodes_spec (tab : NodeTable Node) (hdone : tab.initDone = true) (draws : Nat → Nat)
    (bufLen : Nat) :
    (tab.readRandomNodes draws bufLen).1.Subperm tab.toTable.nodes ∧
      (tab.readRandomNodes draws bufLen).1.length = min bufLen tab.len ∧
      (tab.readRandomNodes draws bufLen).2 = if bufLen < tab.len then bufLen + 1 else tab.len := by
  have hflat := flatten_nonempty_entries tab
  have hfill := filled_nonempty_entries tab
  rw [len_eq_length_nodes, ← hflat, NodeTable.readRandomNodes, if_neg (by simp [hdone])]
  generalize (tab.buckets.toList.filter fun b => b.entries.length > 0).map (·.entries) = entries at hflat hfill ⊢
  dsimp only
  split
  · -- no bucket holds an entry
    have hnil : entries = [] := List.eq_nil_of_length_eq_zero ‹_›
    subst hnil
    simp
  · have hperm : (shuffleBuckets draws (entries.length - 1) entries.toArray).toList.Perm entries := by
      simpa using shuffleBuckets_perm draws (entries.length - 1) entries.toArray
    generalize (shuffleBuckets draws (entries.length - 1) entries.toArray).toList = shuffled at hperm ⊢
    obtain ⟨hs, hl, hc⟩ :=
      fillBuf_spec bufLen 0 0 shuffled (fun b hb => hfill b (hperm.subset hb)) (by rw [hperm.length_eq]; omega)
    rw [hperm.flatten.length_eq] at hl hc
    exact ⟨hs.trans hperm.flatten.subperm, hl, by simpa using hc⟩

/-- On every table past its first refresh whose buckets keep their invariant, for every buffer and whatever the
draws: the nodes written are distinct nodes of the table, `min(len(buf), tab.len())` of them, and the count returned
is `len(buf) + 1` when the table holds more nodes than the buffer, `tab.len()` otherwise. -/
theorem random_nodes_count_one_past_buffer (tab : NodeTable Node) (hinv : tab.Inv nodeID)
    (hdone : tab.initDone = true) (draws : Nat → Nat) (bufLen : Nat) :
    (tab.readRandomNodes draws bufLen).2 = (if bufLen < tab.len then bufLen + 1 else tab.len) ∧
      (tab.readRandomNodes draws bufLen).1.length = min bufLen tab.len ∧
      ((tab.readRandomNodes draws bufLen).1.map nodeID).Nodup ∧
      ∀ n ∈ (tab.readRandomNodes draws bufLen).1, n ∈ tab.toTable.nodes := by
  obtain ⟨hsub, hlen, hcount⟩ := readRandomNodes_spec tab hdone draws bufLen
  exact ⟨hcount, hlen, nodup_map_of_subperm hsub hinv.nodes_nodup.1, fun _ hn => hsub.subset hn⟩

/-- Two nodes of bucket 0 for the local node `peerID 0`, of different /24s, and the first refresh done. -/
def twoNodeTable : NodeTable (ID × IP) :=
  (newTable (peerID 0, [5, 6, 7, 8])).run Prod.fst Prod.snd
    [.add (peerID 1, [1, 2, 3, 4]), .add (peerID 2, [1, 2, 4, 4]), .setInitDone]

theorem random_nodes_count_two_nodes_one_slot :
    twoNodeTable.Inv Prod.fst ∧ twoNodeTable.initDone = true ∧ twoNodeTable.len = 2 ∧
      ((twoNodeTable.readRandomNodes (fun _ => 0) 1).2 =
          (if 1 < twoNodeTable.len then 1 + 1 else twoNodeTable.len) ∧
        (twoNodeTable.readRandomNodes (fun _ => 0) 1).1.length = min 1 twoNodeTable.len ∧
        ((twoNodeTable.readRandomNodes (fun _ => 0) 1).1.map Prod.fst).Nodup ∧
        ∀ n ∈ (twoNodeTable.readRandomNodes (fun _ => 0) 1).1, n ∈ twoNodeTable.toTable.nodes) :=
  have hinv : twoNodeTable.Inv Prod.fst := (inv_newTable _).run _
  ⟨hinv, rfl, by decide, random_nodes_count_one_past_buffer Prod.fst twoNodeTable hinv rfl (fun _ => 0) 1⟩

end Etherzero.Discover
