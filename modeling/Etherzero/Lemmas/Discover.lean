import Mathlib
import Etherzero.Lib.BigEndian
import Etherzero.Lib.KeySort
import Etherzero.P2p.Discover

/-!
# Closest nodes and lookups: lemmas

`DistCmp` orders IDs by their XOR distance to the target read as a big-endian number (`dist`). On entries sorted by
that distance and within its bound, `push` is the insertion after every entry that is not farther, cut to the bound
(`push_entries`), so a run of pushes from no entries holds the first `maxElems` of the stable sort of the pushed
nodes, and `closest` is such a run over the nodes of the buckets. Every push keeps the entries sorted and within the
bound (`NodesByDistance.Inv`), and so does every reply `lookup` takes: whatever the replies, a lookup's result is
sorted by distance to its target and holds at most `bucketSize` nodes.
-/

namespace Etherzero.Discover

open Etherzero.KeySort Etherzero.Search

/-! ## Distances -/

/-- The XOR distance of an ID to the target, as a big-endian number. -/
def dist (target a : ID) : Nat := beValue (List.zipWith (· ^^^ ·) a.toList target.toList)

theorem beValue_cons (b : UInt8) (bs : List UInt8) : beValue (b :: bs) = b.toNat * 256 ^ bs.length + beValue bs := by
  rw [show b :: bs = [b] ++ bs from rfl, beValue_append, beValue_singleton]

/-- A smaller leading digit makes a smaller number, whatever the digits after it. -/
theorem digit_lt {d e x y P : Nat} (hde : d < e) (hx : x < P) : d * P + x < e * P + y := calc
  d * P + x < d * P + P := by omega
  _ = (d + 1) * P := by ring
  _ ≤ e * P := Nat.mul_le_mul_right P hde
  _ ≤ e * P + y := Nat.le_add_right _ _

/-- The loop of `DistCmp` compares the XOR distances as numbers, for IDs as long as the target. -/
theorem distCmpLoop_eq : ∀ (ts as bs : List UInt8), as.length = ts.length → bs.length = ts.length →
    distCmpLoop ts as bs =
      let da := beValue (List.zipWith (· ^^^ ·) as ts)
      let db := beValue (List.zipWith (· ^^^ ·) bs ts)
      if da < db then -1 else if db < da then 1 else 0
  | [], [], [], _, _ => rfl
  | t :: ts, a :: as, b :: bs, ha, hb => by
    simp only [List.length_cons, Nat.add_right_cancel_iff] at ha hb
    have ih := distCmpLoop_eq ts as bs ha hb
    have hla : (List.zipWith (· ^^^ ·) as ts).length = ts.length := by simp [ha]
    have hlb : (List.zipWith (· ^^^ ·) bs ts).length = ts.length := by simp [hb]
    have hxa := beValue_lt (List.zipWith (· ^^^ ·) as ts)
    have hxb := beValue_lt (List.zipWith (· ^^^ ·) bs ts)
    rw [hla] at hxa
    rw [hlb] at hxb
    simp only [distCmpLoop, List.zipWith_cons_cons, beValue_cons, hla, hlb]
    -- the first bytes decide, unless they are equal
    by_cases hgt : (a ^^^ t) > (b ^^^ t)
    · have h := digit_lt (y := beValue (List.zipWith (· ^^^ ·) as ts)) (UInt8.lt_iff_toNat_lt.mp hgt) hxb
      rw [if_pos hgt, if_neg (by omega), if_pos h]
    · by_cases hlt : (a ^^^ t) < (b ^^^ t)
      · have h := digit_lt (y := beValue (List.zipWith (· ^^^ ·) bs ts)) (UInt8.lt_iff_toNat_lt.mp hlt) hxa
        rw [if_neg hgt, if_pos hlt, if_pos h]
      · have heq : a ^^^ t = b ^^^ t := by
          apply UInt8.toNat_inj.mp
          have h₁ := UInt8.lt_iff_toNat_lt.not.mp hgt
          have h₂ := UInt8.lt_iff_toNat_lt.not.mp hlt
          omega
        rw [if_neg hgt, if_neg hlt, ih, heq]
        simp only [Nat.add_lt_add_iff_left]

theorem distCmp_eq (target a b : ID) :
    distCmp target a b =
      if dist target a < dist target b then -1 else if dist target b < dist target a then 1 else 0 :=
  distCmpLoop_eq _ _ _ (by simp) (by simp)

theorem distCmp_pos_iff {target a b : ID} : distCmp target a b > 0 ↔ dist target b < dist target a := by
  rw [distCmp_eq]
  split_ifs <;> omega

theorem distCmp_nonpos_iff {target a b : ID} : distCmp target a b ≤ 0 ↔ dist target a ≤ dist target b := by
  rw [distCmp_eq]
  split_ifs <;> omega


/-! ## `push` -/

/-- Go's insertion at `ix` into a slice of at most `maxElems` entries: append when there is room, shift the entries
from `ix` down by one, put the node at `ix`. For entries `T ++ D` and `ix` the length of `T` this is `T`, the node,
then `D`, cut to `maxElems`. -/
theorem shift_insert_eq {α : Type} (T D : List α) (n : α) {maxElems : Nat} (hlen : (T ++ D).length ≤ maxElems) :
    (let entries := if (T ++ D).length < maxElems then T ++ D ++ [n] else T ++ D
     if T.length = entries.length then entries
     else entries.take T.length ++ n :: (entries.drop T.length).take (entries.length - T.length - 1)) =
      (T ++ n :: D).take maxElems := by
  simp only [List.length_append] at hlen ⊢
  by_cases hroom : T.length + D.length < maxElems
  · -- the node is appended and then moved to its place; nothing is cut
    have htake : (T ++ D ++ [n]).take T.length = T := by rw [List.append_assoc, List.take_left]
    have hdrop : (T ++ D ++ [n]).drop T.length = D ++ [n] := by rw [List.append_assoc, List.drop_left]
    rw [if_pos hroom]
    simp only [List.length_append, List.length_singleton]
    rw [if_neg (by omega), htake, hdrop, show T.length + D.length + 1 - T.length - 1 = D.length by omega,
      List.take_left, List.take_of_length_le (by simp; omega)]
  · -- a full list: the last entry, or the node when it goes last, drops out
    obtain rfl : maxElems = T.length + D.length := by omega
    rw [if_neg hroom]
    simp only [List.length_append]
    split_ifs with hend
    · obtain rfl : D = [] := List.eq_nil_of_length_eq_zero (by omega)
      simp
    · obtain ⟨d, D', rfl⟩ : ∃ d D', D = d :: D' :=
        List.exists_cons_of_ne_nil (fun h => hend (by simp [h]))
      rw [List.take_left, List.drop_left]
      simp [List.take_append]


variable {Node : Type} (nodeID : Node → ID)

/-- The distance of a node to the target, the key the entries are sorted by. -/
def byDist (target : ID) (e : Node) : Nat := dist target (nodeID e)

/-- What every `push` keeps: the entries sorted by distance to the target, and at most `maxElems` of them. -/
structure NodesByDistance.Inv (h : NodesByDistance Node) (maxElems : Nat) : Prop where
  sorted : SortedByKey (byDist nodeID h.target) h.entries
  length_le : h.entries.length ≤ maxElems

variable {nodeID}

/-- Sorted by distance is sorted by `DistCmp`: no entry is farther than one after it. -/
theorem sortedByKey_byDist_iff {target : ID} {l : List Node} :
    SortedByKey (byDist nodeID target) l ↔ l.Pairwise fun a b => distCmp target (nodeID a) (nodeID b) ≤ 0 :=
  List.Pairwise.iff fun _ _ => distCmp_nonpos_iff.symm

theorem push_target (h : NodesByDistance Node) (n : Node) (maxElems : Nat) :
    (h.push nodeID n maxElems).target = h.target := by
  unfold NodesByDistance.push
  dsimp only
  split_ifs <;> rfl

/-- On entries sorted by distance and within the bound, `push` is the insertion after every entry not farther than
the node, cut to the bound: `sort.Search` finds the end of the entries that are not farther. -/
theorem push_entries {h : NodesByDistance Node} {n : Node} {maxElems : Nat} (hinv : h.Inv nodeID maxElems) :
    (h.push nodeID n maxElems).entries = (insertByKey (byDist nodeID h.target) n h.entries).take maxElems := by
  let q : Node → Bool := fun b => decide ¬(byDist nodeID h.target n < byDist nodeID h.target b)
  have hpred : (fun e => !decide (distCmp h.target (nodeID e) (nodeID n) > 0)) = q := by
    funext e
    show (!decide (distCmp h.target (nodeID e) (nodeID n) > 0)) =
      decide ¬(byDist nodeID h.target n < byDist nodeID h.target e)
    rw [decide_not]
    exact congrArg (!·) (decide_eq_decide.mpr distCmp_pos_iff)
  -- the entries farther than the node come after those that are not, since the entries are sorted
  have hmono : ∀ a b (ha : a < h.entries.length) (hb : b < h.entries.length), a ≤ b →
      decide (distCmp h.target (nodeID h.entries[a]) (nodeID n) > 0) = true →
      decide (distCmp h.target (nodeID h.entries[b]) (nodeID n) > 0) = true := by
    intro a b ha hb hab hfar
    simp only [decide_eq_true_eq, distCmp_pos_iff] at hfar ⊢
    rcases Nat.lt_or_eq_of_le hab with hlt | rfl
    · exact lt_of_lt_of_le hfar (List.pairwise_iff_getElem.mp hinv.sorted a b ha hb hlt)
    · exact hfar
  have hix := search_eq_length_takeWhile
    (p := fun e => decide (distCmp h.target (nodeID e) (nodeID n) > 0)) hmono
  rw [hpred] at hix
  have hins : insertByKey (byDist nodeID h.target) n h.entries =
      h.entries.takeWhile q ++ n :: h.entries.dropWhile q := List.orderedInsert_eq_take_drop _ _ _
  have hsplit : h.entries = h.entries.takeWhile q ++ h.entries.dropWhile q := List.takeWhile_append_dropWhile.symm
  generalize h.entries.takeWhile q = T at hix hins hsplit
  generalize h.entries.dropWhile q = D at hins hsplit
  rw [hins, ← shift_insert_eq T D n (hsplit ▸ hinv.length_le)]
  simp only [NodesByDistance.push]
  rw [hix, hsplit]
  split_ifs <;> rfl

theorem push_inv {h : NodesByDistance Node} (n : Node) {maxElems : Nat} (hinv : h.Inv nodeID maxElems) :
    (h.push nodeID n maxElems).Inv nodeID maxElems := by
  constructor
  · rw [push_target, push_entries hinv]
    exact (sortedByKey_insertByKey hinv.sorted).sublist (List.take_sublist _ _)
  · rw [push_entries hinv]
    exact List.length_take_le _ _

/-! ## Runs of pushes -/

/-- A run of pushes keeps the target and the invariant, and its entries are the insertions each cut to the bound.
The induction is on the pushed nodes, for any start that keeps the invariant. -/
theorem foldl_push (ns : List Node) {maxElems : Nat} :
    ∀ {h : NodesByDistance Node}, h.Inv nodeID maxElems →
      let h' := ns.foldl (fun (h : NodesByDistance Node) n => h.push nodeID n maxElems) h
      h'.Inv nodeID maxElems ∧ h'.target = h.target ∧
        h'.entries = ns.foldl (fun l x => (insertByKey (byDist nodeID h.target) x l).take maxElems) h.entries := by
  induction ns with
  | nil => exact fun hinv => ⟨hinv, rfl, rfl⟩
  | cons n ns ih =>
    intro h hinv
    obtain ⟨hinv', htarget, hentries⟩ := ih (push_inv n hinv)
    simp only [List.foldl_cons]
    rw [push_target] at htarget hentries
    exact ⟨hinv', htarget, hentries.trans (by rw [push_entries hinv])⟩

/-- Pushing nodes into no entries keeps the first `maxElems` of their stable sort by distance. -/
theorem foldl_push_nil (ns : List Node) (target : ID) (maxElems : Nat) :
    let h := ns.foldl (fun (h : NodesByDistance Node) n => h.push nodeID n maxElems) ⟨[], target⟩
    h.Inv nodeID maxElems ∧ h.target = target ∧
      h.entries = (sortByKey (byDist nodeID target) ns).take maxElems := by
  have hstart : (⟨[], target⟩ : NodesByDistance Node).Inv nodeID maxElems :=
    ⟨List.Pairwise.nil, Nat.zero_le _⟩
  obtain ⟨hinv, htarget, hentries⟩ := foldl_push ns hstart
  refine ⟨hinv, htarget, hentries.trans ?_⟩
  rw [sortByKey, ← foldl_take_insertByKey, List.take_nil]

/-- The nodes of the table's buckets, in the order `closest` reads them. -/
def Table.nodes (tab : Table Node) : List Node := tab.buckets.flatMap (·.entries)

/-- `closest` pushes the nodes of the table one after another. -/
theorem closest_eq_foldl (tab : Table Node) (target : ID) (nresults : Nat) :
    tab.closest nodeID target nresults =
      tab.nodes.foldl (fun (h : NodesByDistance Node) n => h.push nodeID n nresults) ⟨[], target⟩ := by
  rw [Table.closest, Table.nodes, List.foldl_flatMap]

theorem closest_inv (tab : Table Node) (target : ID) (nresults : Nat) :
    (tab.closest nodeID target nresults).Inv nodeID nresults ∧
      (tab.closest nodeID target nresults).target = target := by
  rw [closest_eq_foldl]
  obtain ⟨hinv, htarget, -⟩ := @foldl_push_nil Node nodeID tab.nodes target nresults
  exact ⟨hinv, htarget⟩

/-! ## Lookups -/

/-- Taking a reply pushes some of its nodes, so it keeps the target and the invariant, node by node. -/
theorem takeReply_inv (reply : List (Option Node)) (seen : List ID) {result : NodesByDistance Node}
    (hinv : result.Inv nodeID bucketSize) :
    (takeReply nodeID reply seen result).2.Inv nodeID bucketSize ∧
      (takeReply nodeID reply seen result).2.target = result.target := by
  unfold takeReply
  refine List.foldlRecOn
    (motive := fun (p : List ID × NodesByDistance Node) => p.2.Inv nodeID bucketSize ∧ p.2.target = result.target)
    reply _ ⟨hinv, rfl⟩ fun ⟨seen, res⟩ hres n _ => ?_
  rcases n with _ | n
  · exact hres
  · dsimp only
    split_ifs
    · exact hres
    · -- a node not seen in a reply before is pushed
      exact ⟨push_inv n hres.1, (push_target res n bucketSize).trans hres.2⟩

/-- The loop of `lookup` returns the entries of a result that keeps the invariant and the target it started with.
The induction is on the fuel: each round asks without touching the result and takes one reply. -/
theorem lookupLoop_inv : ∀ (fuel : Nat) (asked seen : List ID) (pendingQueries : Nat) {result : NodesByDistance Node}
    (replies : List (List (Option Node))) {r : List Node}, result.Inv nodeID bucketSize →
    lookupLoop nodeID fuel asked seen pendingQueries result replies = some r →
    ∃ h : NodesByDistance Node, h.Inv nodeID bucketSize ∧ h.target = result.target ∧ r = h.entries
  | 0, _, _, _, _, _, _, _, hrun => by simp [lookupLoop] at hrun
  | fuel + 1, asked, seen, pendingQueries, result, replies, r, hinv, hrun => by
    rw [lookupLoop] at hrun
    rcases hask : askLoop nodeID result.entries asked pendingQueries with ⟨asked', pendingQueries'⟩
    rw [hask] at hrun
    dsimp only at hrun
    split_ifs at hrun with hdone
    · -- nothing left to ask: the result is returned as it is
      cases hrun
      exact ⟨result, hinv, rfl, rfl⟩
    · rcases replies with _ | ⟨reply, replies⟩
      · cases hrun
      · -- one reply is taken, and the loop goes on from there
        have htake := takeReply_inv reply seen hinv
        dsimp only at hrun
        obtain ⟨h, hinv', htarget, rfl⟩ := lookupLoop_inv fuel _ _ _ replies htake.1 hrun
        exact ⟨h, hinv', htarget.trans htake.2, rfl⟩

/-- Whatever the replies, a lookup's result is sorted by distance to its target and holds at most `bucketSize`
nodes: it starts from the closest nodes of the table, or of the refreshed table, and only pushes. -/
theorem lookup_sorted {tab refreshed : Table Node} {target : ID} {refreshIfEmpty : Bool} {fuel : Nat}
    {replies : List (List (Option Node))} {r : List Node}
    (hrun : tab.lookup nodeID refreshed target refreshIfEmpty fuel replies = some r) :
    SortedByKey (byDist nodeID target) r ∧ r.length ≤ bucketSize := by
  rw [Table.lookup] at hrun
  -- the start, from either table, keeps the invariant for the lookup's target
  have hstart : ∀ t : Table Node, (t.closest nodeID target bucketSize).Inv nodeID bucketSize ∧
      (t.closest nodeID target bucketSize).target = target := fun t => closest_inv t target bucketSize
  split_ifs at hrun
  all_goals
    obtain ⟨h, hinv, htarget, rfl⟩ := lookupLoop_inv _ _ _ _ _ (hstart _).1 hrun
    have hsorted := hinv.sorted
    rw [htarget, (hstart _).2] at hsorted
    exact ⟨hsorted, hinv.length_le⟩

end Etherzero.Discover
