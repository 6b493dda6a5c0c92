import Mathlib
import Etherzero.Trie.Trie
import Etherzero.Lib.StateExcept
import Etherzero.Lib.FoldM

set_option linter.dupNamespace false

/-!
# The cache invariant of the trie

`checkCacheInvariant` in the trie's tests checks two things of every in-memory node: its generation is at most its
parent's, the trie's `cachegen` for the root; and a dirty node has a dirty parent, except the root. Here they are
`Node.GenOK` and `Node.DirtyOK`, with what each operation does to them.

A commit clears the dirty flags of what `hash` walks, and `hash` does not walk child 16 of a full node. The dirty
part is kept only with `Node.WF`, the shape that keeps what a commit does not walk clean: the terminator is at most
the last nibble of a key, and the value at the terminator is clean. Nodes loaded from the database are `Fresh`: clean,
of that shape, and of the generation they were loaded in. `insert`, `delete` and `tryGet` build new dirty nodes of the
current generation over nodes they keep or load; `hash` keeps the flags or, in commit mode, clears them.
-/

namespace Etherzero.Trie

/-- No node of `n` has a generation above its parent's; the parent of `n` counts with generation `g`. -/
def Node.GenOK : Nat → Node → Prop
  | g, .full c f => f.gen.toNat ≤ g ∧ ∀ i, (c i).GenOK f.gen.toNat
  | g, .short _ v f => f.gen.toNat ≤ g ∧ v.GenOK f.gen.toNat
  | _, _ => True

/-- Every dirty node of `n` has a dirty parent; the parent of `n` counts as dirty when `pd` holds. -/
def Node.DirtyOK : Bool → Node → Prop
  | pd, .full c f => (f.dirty = true → pd = true) ∧ ∀ i, (c i).DirtyOK f.dirty
  | pd, .short _ v f => (f.dirty = true → pd = true) ∧ v.DirtyOK f.dirty
  | _, _ => True

/-- The cache invariant of a trie: generations ordered below `cachegen`, and dirty nodes under dirty parents. -/
def Trie.CacheInv (t : Trie) : Prop := t.root.GenOK t.cachegen.toNat ∧ t.root.DirtyOK true

/-- A hex key has the terminator 16 at most as its last nibble. -/
def KeyOK (k : List UInt8) : Prop := 16 ∉ k.dropLast

/-- The shape that keeps uncommitted data reachable from a commit: short keys have the terminator at most at their
end, and what a commit does not walk is clean: the value under a key with the terminator, and a full node's child 16.
-/
def Node.WF : Node → Prop
  | .full c _ => (c 16).DirtyOK false ∧ ∀ i, (c i).WF
  | .short k v _ => KeyOK k ∧ (hasTerm k = true → v.DirtyOK false) ∧ v.WF
  | _ => True

/-- A node no operation has touched since it was loaded: clean and well formed, of generation at most `g`. -/
structure Node.Fresh (g : Nat) (n : Node) : Prop where
  dirtyOK : n.DirtyOK false
  genOK : n.GenOK g
  wf : n.WF

/-! ## Generations and dirty flags -/

theorem Node.GenOK.mono {n : Node} {g g' : Nat} (h : n.GenOK g) (hg : g ≤ g') : n.GenOK g' := by
  cases n with
  | full c f => exact ⟨le_trans h.1 hg, h.2⟩
  | short k v f => exact ⟨le_trans h.1 hg, h.2⟩
  | _ => trivial

theorem Node.DirtyOK.mono {n : Node} {pd pd' : Bool} (h : n.DirtyOK pd) (hp : pd = true → pd' = true) :
    n.DirtyOK pd' := by
  cases n with
  | full c f => exact ⟨fun hd => hp (h.1 hd), h.2⟩
  | short k v f => exact ⟨fun hd => hp (h.1 hd), h.2⟩
  | _ => trivial

theorem Node.DirtyOK.weaken {n : Node} {pd : Bool} (h : n.DirtyOK pd) : n.DirtyOK true := h.mono fun _ => rfl

theorem Node.DirtyOK.of_false {n : Node} (h : n.DirtyOK false) (pd : Bool) : n.DirtyOK pd := h.mono nofun

/-- The dirty flag of a full or short node; hash and value nodes have none. -/
def Node.isDirty : Node → Bool
  | .full _ f | .short _ _ f => f.dirty
  | _ => false

/-- A node that is not dirty under any parent: all of it is clean. -/
theorem Node.DirtyOK.clean {n : Node} {pd : Bool} (h : n.DirtyOK pd) (hn : n.isDirty = false) : n.DirtyOK false := by
  cases n with
  | full c f => exact ⟨fun hd => by simp_all [Node.isDirty], h.2⟩
  | short k v f => exact ⟨fun hd => by simp_all [Node.isDirty], h.2⟩
  | _ => trivial

theorem Node.Fresh.mono {n : Node} {g g' : Nat} (h : n.Fresh g) (hg : g ≤ g') : n.Fresh g' :=
  ⟨h.dirtyOK, h.genOK.mono hg, h.wf⟩

/-! ## Keys -/

theorem keyOK_keybytesToHex (b : List UInt8) : KeyOK (keybytesToHex b) := by
  rw [KeyOK, keybytesToHex, List.dropLast_append_of_ne_nil (by simp), List.dropLast_singleton, List.append_nil]
  simp only [List.mem_flatMap, List.mem_cons, List.not_mem_nil, or_false, not_exists, not_and]
  intro x _ h
  -- both nibbles of a byte are below 16
  have hx := x.toNat_lt
  rcases h with h | h
  · have : (x / 16).toNat < 16 := by rw [UInt8.toNat_div]; simp; omega
    rw [← h] at this
    simp at this
  · have : (x % 16).toNat < 16 := by rw [UInt8.toNat_mod]; simp; omega
    rw [← h] at this
    simp at this

theorem KeyOK.drop {k : List UInt8} (h : KeyOK k) (n : Nat) : KeyOK (k.drop n) := by
  rw [KeyOK, List.dropLast_drop_eq_drop_dropLast]
  exact fun hm => h (List.mem_of_mem_drop hm)

theorem KeyOK.dropLast {k : List UInt8} (h : KeyOK k) : KeyOK k.dropLast :=
  fun hm => h (List.mem_of_mem_dropLast hm)

/-- A proper prefix of a key has no terminator. -/
theorem KeyOK.not_mem_take {k : List UInt8} (h : KeyOK k) {n : Nat} (hn : n < k.length) : 16 ∉ k.take n := by
  intro hm
  apply h
  have htake : k.take n = (k.take (k.length - 1)).take n := by rw [List.take_take]; congr 1; omega
  rw [List.dropLast_eq_take]
  rw [htake] at hm
  exact List.mem_of_mem_take hm

/-- The terminator in a key is its last nibble. -/
theorem KeyOK.drop_of_getElem {k : List UInt8} (h : KeyOK k) {i : Nat} (hi : k[i]? = some 16) :
    k.drop (i + 1) = [] := by
  obtain ⟨hlt, heq⟩ := List.getElem?_eq_some_iff.mp hi
  rw [List.drop_eq_nil_iff]
  by_contra hlast
  have hi' : i < k.dropLast.length := by rw [List.length_dropLast]; omega
  apply h
  have hget : k.dropLast[i] = 16 := by rw [List.getElem_dropLast]; exact heq
  rw [← hget]
  exact List.getElem_mem hi'

theorem hasTerm_of_drop {k : List UInt8} {n : Nat} (h : hasTerm (k.drop n) = true) : hasTerm k = true := by
  rw [hasTerm, beq_iff_eq, List.getLast?_drop] at h
  rw [hasTerm, beq_iff_eq]
  split at h
  · cases h
  · exact h

/-- A terminator in a key makes it a key with the terminator. -/
theorem KeyOK.hasTerm_of_getElem {k : List UInt8} (h : KeyOK k) {i : Nat} (hi : k[i]? = some 16) :
    hasTerm k = true := by
  have hdrop := h.drop_of_getElem hi
  obtain ⟨hlt, heq⟩ := List.getElem?_eq_some_iff.mp hi
  rw [List.drop_eq_nil_iff] at hdrop
  rw [hasTerm, beq_iff_eq, List.getLast?_eq_getElem?, show k.length - 1 = i by omega, hi]

/-- A key with the terminator that a longer key starts with is that key. -/
theorem KeyOK.eq_of_take {key k : List UInt8} (h : KeyOK key) (hpre : key.take k.length = k)
    (ht : hasTerm k = true) : key = k := by
  rw [hasTerm, beq_iff_eq, List.getLast?_eq_getElem?] at ht
  have hne : k ≠ [] := by rintro rfl; simp at ht
  have hlen : 0 < k.length := List.length_pos_iff.mpr hne
  have hkey : key[k.length - 1]? = some 16 := by
    have hsame : k[k.length - 1]? = (key.take k.length)[k.length - 1]? := by rw [hpre]
    rw [List.getElem?_take, if_pos (by omega)] at hsame
    rw [← hsame, ht]
  have hdrop := h.drop_of_getElem hkey
  rw [Nat.sub_add_cancel hlen] at hdrop
  rw [← List.take_append_drop k.length key, hdrop, List.append_nil, hpre]

theorem prefixLen_take : ∀ a b : List UInt8, a.take (prefixLen a b) = b.take (prefixLen a b)
  | x :: a, y :: b => by
    rw [prefixLen]
    split
    · rename_i hxy
      rw [List.take_succ_cons, List.take_succ_cons, prefixLen_take a b, hxy]
    · rfl
  | [], _ => by simp [prefixLen]
  | _ :: _, [] => by simp [prefixLen]

theorem prefixLen_le_left : ∀ a b : List UInt8, prefixLen a b ≤ a.length
  | x :: a, y :: b => by
    rw [prefixLen]
    split
    · simp only [List.length_cons]; have := prefixLen_le_left a b; omega
    · omega
  | [], _ => by simp [prefixLen]
  | _ :: _, [] => by simp [prefixLen]

theorem prefixLen_le_right : ∀ a b : List UInt8, prefixLen a b ≤ b.length
  | x :: a, y :: b => by
    rw [prefixLen]
    split
    · simp only [List.length_cons]; have := prefixLen_le_right a b; omega
    · omega
  | [], _ => by simp [prefixLen]
  | _ :: _, [] => by simp [prefixLen]

/-- A key without the terminator is a key, and one without it at its end. -/
theorem keyOK_of_not_mem {k : List UInt8} (h : 16 ∉ k) : KeyOK k ∧ hasTerm k = false := by
  refine ⟨fun hm => h (List.mem_of_mem_dropLast hm), ?_⟩
  rw [hasTerm, beq_eq_false_iff_ne]
  intro hl
  exact h (List.mem_of_getLast? hl)

/-- The index of a child is the nibble of the key at that position. -/
theorem childIndex_eq_some {key : List UInt8} {i : Nat} {j : Fin 17} (h : childIndex key i = some j) :
    ∃ b, key[i]? = some b ∧ b.toNat = j.val := by
  simp only [childIndex] at h
  split at h
  · rename_i b hb
    split at h
    · cases h; exact ⟨b, hb, rfl⟩
    · cases h
  · cases h

theorem childIndex_lt {key : List UInt8} {i : Nat} {j : Fin 17} (h : childIndex key i = some j) : i < key.length := by
  obtain ⟨b, hb, -⟩ := childIndex_eq_some h
  exact (List.getElem?_eq_some_iff.mp hb).1

/-- Child 16 is taken at the terminator. -/
theorem childIndex_terminator {key : List UInt8} {i : Nat} (h : childIndex key i = some 16) : key[i]? = some 16 := by
  obtain ⟨b, hb, hbj⟩ := childIndex_eq_some h
  rw [hb]
  congr 1
  exact UInt8.toNat_inj.mp hbj

/-- A key without the terminator at its end has none. -/
theorem KeyOK.not_mem {k : List UInt8} (h : KeyOK k) (ht : hasTerm k = false) : 16 ∉ k := by
  intro hm
  have hne : k ≠ [] := List.ne_nil_of_mem hm
  rw [← List.dropLast_append_getLast hne, List.mem_append, List.mem_singleton] at hm
  rcases hm with hm | hm
  · exact h hm
  · rw [hasTerm, List.getLast?_eq_some_getLast hne, ← hm] at ht
    exact absurd ht (by decide)

/-- A part without the terminator in front of a key keeps it a key, with the same end. -/
theorem keyOK_append {a b : List UInt8} (ha : 16 ∉ a) (hb : KeyOK b) : KeyOK (a ++ b) ∧ hasTerm (a ++ b) = hasTerm b := by
  constructor
  · rw [KeyOK, List.dropLast_append]
    split
    · exact fun hm => ha (List.mem_of_mem_dropLast hm)
    · rw [List.mem_append, not_or]
      exact ⟨ha, hb⟩
  · rw [hasTerm, hasTerm, List.getLast?_append]
    cases hb' : b.getLast? with
    | some x => rfl
    | none =>
      cases ha' : a.getLast? with
      | none => rfl
      | some y =>
        have hy : y ≠ 16 := fun hy => ha (hy ▸ List.mem_of_getLast? ha')
        simp [hy]

/-- A nibble of a full node's index is the terminator only for child 16. -/
theorem ofNat_nibble_eq_terminator {j : Fin 17} (h : UInt8.ofNat j.val = 16) : j = 16 := by
  have hj := j.isLt
  have h' := congrArg UInt8.toNat h
  rw [UInt8.toNat_ofNat'] at h'
  simp at h'
  ext
  simp
  omega

/-- A key that goes through a short node's whole key starts with it. -/
theorem take_of_prefixLen {key k : List UInt8} (hm : prefixLen key k = k.length) : key.take k.length = k := by
  rw [← hm, prefixLen_take, hm, List.take_length]

/-- A short node's key with the terminator is the whole of any key that goes through it. -/
theorem KeyOK.eq_of_prefixLen {key k : List UInt8} (h : KeyOK key) (hm : prefixLen key k = k.length)
    (ht : hasTerm k = true) : key = k :=
  h.eq_of_take (take_of_prefixLen hm) ht

theorem keyOK_compactToHex {c k : List UInt8} (h : compactToHex c = some k) : KeyOK k := by
  simp only [compactToHex, Option.bind_eq_bind, Option.bind_eq_some_iff] at h
  obtain ⟨first, -, first', -, h⟩ := h
  -- the nibbles after the flag, with the terminator or without it
  have hbase : KeyOK (if first < 2 then (keybytesToHex c).dropLast else keybytesToHex c) := by
    split
    · exact (keyOK_keybytesToHex c).dropLast
    · exact keyOK_keybytesToHex c
  generalize (if first < 2 then (keybytesToHex c).dropLast else keybytesToHex c) = base at h hbase
  split at h
  · rw [← Option.some.inj h]
    exact hbase.drop _
  · cases h

/-! ## Children -/

/-- A property of one child after an update: of the new child where it was put, and of the old one elsewhere. -/
theorem update_apply_of {P : Node → Prop} {c : Fin 17 → Node} {i j : Fin 17} {n : Node} (h : j = i → P n)
    (hc : j ≠ i → P (c j)) : P (Function.update c i n j) := by
  rw [Function.update_apply]
  split
  · exact h ‹_›
  · exact hc ‹_›

/-- A property of the new child and of the old children holds of every child after the update. -/
theorem update_child {P : Node → Prop} {c : Fin 17 → Node} {i : Fin 17} {n : Node} (h : P n) (hc : ∀ j, P (c j)) :
    ∀ j, P (Function.update c i n j) :=
  fun _ => update_apply_of (fun _ => h) (fun _ => hc _)

/-! ## Nodes loaded from the database -/

section Load

variable {db : List UInt8 → Option RawNode} {cg : UInt16}

/-- A node loaded from the database is fresh at the generation it was loaded in: `expandNode` and `decodeNode` give
every node of it that generation and no dirty flag. -/
theorem expandNode_fresh : ∀ (raw : RawNode) (hsh : Option (List UInt8)) (n : Node),
    expandNode hsh cg raw = some n → n.Fresh cg.toNat := by
  intro raw
  induction raw with
  | empty => intro _ _ h; cases h
  | hash h => intro _ n hn; cases hn; exact ⟨trivial, trivial, trivial⟩
  | value v => intro _ n hn; cases hn; exact ⟨trivial, trivial, trivial⟩
  | short key val ih =>
    intro hsh n hn
    simp only [expandNode, Option.bind_eq_bind, Option.bind_eq_some_iff] at hn
    obtain ⟨key', hkey, val', hval, hn⟩ := hn
    cases hn
    have hv := ih none val' hval
    exact ⟨⟨nofun, hv.dirtyOK⟩, ⟨le_refl _, hv.genOK⟩, ⟨keyOK_compactToHex hkey, fun _ => hv.dirtyOK, hv.wf⟩⟩
  | full children ih =>
    intro hsh n hn
    simp only [expandNode, Option.bind_eq_bind, Option.bind_eq_some_iff] at hn
    obtain ⟨children', hloop, hn⟩ := hn
    cases hn
    -- each child the loop expands is fresh, and the others stay nil
    have hc : ∀ i, (children' i).Fresh cg.toNat := by
      refine FoldM.foldlM_option_inv (fun acc : Fin 17 → Node => ∀ i, (acc i).Fresh cg.toNat) _ ?_ _ noChildren _
        (fun _ => ⟨trivial, trivial, trivial⟩) hloop
      intro acc i acc' hacc hstep
      split at hstep
      · cases hstep
        exact hacc
      · simp only [Option.bind_eq_some_iff] at hstep
        obtain ⟨c, hce, hstep⟩ := hstep
        cases hstep
        exact update_child (ih i none c hce) hacc
    exact ⟨⟨nofun, fun i => (hc i).dirtyOK⟩, ⟨le_refl _, fun i => (hc i).genOK⟩, ⟨(hc 16).dirtyOK, fun i => (hc i).wf⟩⟩

theorem resolveHash_fresh {h pfx : List UInt8} {n : Node} (hr : resolveHash db cg h pfx = .ok n) :
    n.Fresh cg.toNat := by
  simp only [resolveHash] at hr
  split at hr
  · cases hr
  · split at hr
    · cases hr
      exact expandNode_fresh _ _ _ ‹_›
    · cases hr

/-- `resolve` leaves a node as it is, or loads a fresh one. -/
theorem resolve_cases {n m : Node} {pfx : List UInt8} (hr : resolve db cg n pfx = .ok m) :
    m = n ∨ m.Fresh cg.toNat := by
  cases n with
  | hash h => exact .inr (resolveHash_fresh hr)
  | _ => cases hr; exact .inl rfl

end Load

/-! ## Lookups -/

section Get

variable {db : List UInt8 → Option RawNode} {cg : UInt16}

/-- What `tryGet` puts in a node's place. It is the node itself when nothing was resolved. Otherwise it is a copy of
the path at the current generation over the loaded nodes, with the dirty flags as they were: it keeps all three
invariants. -/
theorem tryGet_keeps : ∀ fuel (n : Node) key pos v n' d, tryGet db cg fuel n key pos = .ok (v, n', d) →
    (d = false → n' = n) ∧ (∀ pd, n.DirtyOK pd → n'.DirtyOK pd) ∧
      (∀ g, n.GenOK g → g ≤ cg.toNat → n'.GenOK cg.toNat) ∧ (n.WF → n'.WF) := by
  intro fuel
  induction fuel with
  | zero => intro _ _ _ _ _ _ h; cases h
  | succ fuel ih =>
    intro n key pos v n' d h
    cases n with
    | empty => cases h; exact ⟨fun _ => rfl, fun _ h => h, fun _ h _ => h, id⟩
    | value w => cases h; exact ⟨fun _ => rfl, fun _ h => h, fun _ h _ => h, id⟩
    | hash hh =>
      -- the loaded node is fresh, and the lookup goes on in it
      simp only [tryGet] at h
      obtain ⟨child, hchild, h⟩ := except_bind_eq_ok.mp h
      obtain ⟨⟨value, newnode, didResolve⟩, hrec, h⟩ := except_bind_eq_ok.mp h
      cases h
      have hf := resolveHash_fresh hchild
      obtain ⟨-, hd, hg, hw⟩ := ih child key pos value newnode didResolve hrec
      exact ⟨nofun, fun pd _ => hd pd (hf.dirtyOK.of_false pd), fun _ _ _ => hg _ hf.genOK (le_refl _),
        fun _ => hw hf.wf⟩
    | short k val f =>
      simp only [tryGet] at h
      split at h
      · cases h; exact ⟨fun _ => rfl, fun _ h => h, fun _ h hg => h.mono hg, id⟩
      · obtain ⟨⟨value, newnode, didResolve⟩, hrec, h⟩ := except_bind_eq_ok.mp h
        obtain ⟨-, hd, hg, hw⟩ := ih val key _ value newnode didResolve hrec
        cases didResolve with
        | false => cases h; exact ⟨fun _ => rfl, fun _ h => h, fun _ h hg => h.mono hg, id⟩
        | true =>
          cases h
          refine ⟨nofun, fun pd hn => ⟨hn.1, hd _ hn.2⟩, fun g hn hle => ⟨le_refl _, hg _ hn.2 (le_trans hn.1 hle)⟩,
            fun hn => ⟨hn.1, fun ht => hd false (hn.2.1 ht), hw hn.2.2⟩⟩
    | full c f =>
      simp only [tryGet] at h
      split at h
      · cases h
      · rename_i i _
        obtain ⟨⟨value, newnode, didResolve⟩, hrec, h⟩ := except_bind_eq_ok.mp h
        obtain ⟨-, hd, hg, hw⟩ := ih (c i) key _ value newnode didResolve hrec
        cases didResolve with
        | false => cases h; exact ⟨fun _ => rfl, fun _ h => h, fun _ h hg => h.mono hg, id⟩
        | true =>
          cases h
          exact ⟨nofun, fun pd hn => ⟨hn.1, update_child (hd _ (hn.2 i)) hn.2⟩,
            fun g hn hle => ⟨le_refl _, update_child (hg _ (hn.2 i) (le_trans hn.1 hle))
              fun j => (hn.2 j).mono (le_trans hn.1 hle)⟩,
            fun hn => ⟨update_apply_of (fun h16 => hd _ (h16 ▸ hn.1)) (fun _ => hn.1), update_child (hw (hn.2 i)) hn.2⟩⟩

end Get

/-! ## Updates -/

section Update

variable {db : List UInt8 → Option RawNode} {cg : UInt16}

/-- At the end of the key, `insert` puts the value in place. -/
theorem insert_nil_key {fuel : Nat} {n : Node} {pfx : List UInt8} {value : Node} {d : Bool} {nn : Node}
    (h : insert db cg fuel n pfx [] value = .ok (d, nn)) : nn = value := by
  cases fuel with
  | zero => cases h
  | succ fuel =>
    simp only [insert, List.length_nil, if_true] at h
    split at h
    · split at h
      · cases h; rfl
      · cases h
    · cases h; rfl

/-- What `insert` puts in a node's place. The node itself when nothing changed, or one loaded for it; otherwise new
dirty nodes of the current generation over the value and the old children. -/
theorem insert_keeps : ∀ fuel (n : Node) pfx key value d nn, insert db cg fuel n pfx key value = .ok (d, nn) →
    (∀ pd, n.DirtyOK pd → value.DirtyOK true → nn.DirtyOK (d || pd)) ∧
      (∀ g, n.GenOK g → g ≤ cg.toNat → value.GenOK cg.toNat → nn.GenOK cg.toNat) ∧
      (KeyOK key → n.WF → value.WF → (hasTerm key = true → value.DirtyOK false) → nn.WF) := by
  intro fuel
  induction fuel with
  | zero => intro _ _ _ _ _ _ h; cases h
  | succ fuel ih =>
    intro n pfx key value d nn h
    simp only [insert] at h
    split at h
    · -- at the end of the key the value takes the node's place
      split at h
      · split at h
        · cases h; exact ⟨fun _ _ _ => trivial, fun _ _ _ _ => trivial, fun _ _ _ _ => trivial⟩
        · cases h
      · cases h; exact ⟨fun _ _ hv => hv, fun _ _ _ hv => hv, fun _ _ hv _ => hv⟩
    · rename_i hkey
      cases n with
      | value w => cases h
      | empty =>
        cases h
        exact ⟨fun _ _ hv => ⟨fun _ => rfl, hv⟩, fun _ _ _ hv => ⟨le_refl _, hv⟩,
          fun hk _ hv ht => ⟨hk, ht, hv⟩⟩
      | hash hh =>
        obtain ⟨rn, hrn, h⟩ := except_bind_eq_ok.mp h
        obtain ⟨⟨dirty, nn'⟩, hrec, h⟩ := except_bind_eq_ok.mp h
        have hf := resolveHash_fresh hrn
        obtain ⟨hd, hg, hw⟩ := ih rn pfx key value dirty nn' hrec
        cases dirty with
        | false =>
          cases h
          exact ⟨fun pd _ _ => hf.dirtyOK.of_false _, fun _ _ _ _ => hf.genOK, fun _ _ _ _ => hf.wf⟩
        | true =>
          cases h
          exact ⟨fun pd _ hv => hd pd (hf.dirtyOK.of_false pd) hv, fun _ _ _ hv => hg _ hf.genOK (le_refl _) hv,
            fun hk _ hv ht => hw hk hf.wf hv ht⟩
      | full c f =>
        obtain ⟨i, hi⟩ : ∃ i, childIndex key 0 = some i := by
          cases hc : childIndex key 0 with
          | none => simp only [hc] at h; cases h
          | some i => exact ⟨i, rfl⟩
        simp only [hi] at h
        obtain ⟨⟨dirty, nn'⟩, hrec, h⟩ := except_bind_eq_ok.mp h
        obtain ⟨hd, hg, hw⟩ := ih (c i) _ (key.drop 1) value dirty nn' hrec
        cases dirty with
        | false => cases h; exact ⟨fun _ hn _ => hn, fun _ hn hle _ => hn.mono hle, fun _ hn _ _ => hn⟩
        | true =>
          cases h
          refine ⟨fun pd hn hv => ⟨fun _ => rfl, update_child (hd _ (hn.2 i) hv) fun j => (hn.2 j).weaken⟩,
            fun g hn hle hv => ⟨le_refl _, update_child (hg _ (hn.2 i) (le_trans hn.1 hle) hv)
              fun j => (hn.2 j).mono (le_trans hn.1 hle)⟩,
            fun hk hn hv ht => ⟨?_, update_child (hw (hk.drop 1) (hn.2 i) hv fun h' => ht (hasTerm_of_drop h')) hn.2⟩⟩
          -- the child of the terminator gets the value itself
          refine update_apply_of (fun h16 => ?_) (fun _ => hn.1)
          have h0 : key[0]? = some 16 := childIndex_terminator (h16 ▸ hi)
          rw [hk.drop_of_getElem h0] at hrec
          rw [insert_nil_key hrec]
          exact ht (hk.hasTerm_of_getElem h0)
      | short k v f =>
        simp only at h
        split at h
        · -- the whole key of the short node matches
          rename_i hm
          obtain ⟨⟨dirty, nn'⟩, hrec, h⟩ := except_bind_eq_ok.mp h
          obtain ⟨hd, hg, hw⟩ := ih v _ _ value dirty nn' hrec
          cases dirty with
          | false => cases h; exact ⟨fun _ hn _ => hn, fun _ hn hle _ => hn.mono hle, fun _ hn _ _ => hn⟩
          | true =>
            cases h
            refine ⟨fun pd hn hv => ⟨fun _ => rfl, hd _ hn.2 hv⟩,
              fun g hn hle hv => ⟨le_refl _, hg _ hn.2 (le_trans hn.1 hle) hv⟩,
              fun hk hn hv ht => ⟨hn.1, fun htk => ?_, hw (hk.drop _) hn.2.2 hv fun h' => ht (hasTerm_of_drop h')⟩⟩
            -- a key with the terminator ends where the short key does, so the value is the new child
            have heq := hk.eq_of_prefixLen hm htk
            rw [hm, ← heq, List.drop_length] at hrec
            rw [insert_nil_key hrec]
            exact ht (heq ▸ htk)
        · -- branch out where the keys differ
          rename_i hm
          obtain ⟨ki, hki⟩ : ∃ ki, childIndex k (prefixLen key k) = some ki := by
            cases hc : childIndex k (prefixLen key k) with
            | none => simp only [hc] at h; cases h
            | some i => exact ⟨i, rfl⟩
          simp only [hki] at h
          obtain ⟨⟨d1, c1⟩, h1, h⟩ := except_bind_eq_ok.mp h
          obtain ⟨kk, hkk⟩ : ∃ kk, childIndex key (prefixLen key k) = some kk := by
            cases hc : childIndex key (prefixLen key k) with
            | none => simp only [hc] at h; cases h
            | some i => exact ⟨i, rfl⟩
          simp only [hkk] at h
          obtain ⟨⟨d2, c2⟩, h2, h⟩ := except_bind_eq_ok.mp h
          obtain ⟨hd1, hg1, hw1⟩ := ih .empty _ _ v d1 c1 h1
          obtain ⟨hd2, hg2, hw2⟩ := ih .empty _ _ value d2 c2 h2
          have hlt : prefixLen key k < key.length := childIndex_lt hkk
          -- the new full node, under a new short node over the common prefix when there is one
          have hnn : d = true ∧ (nn = .full (Function.update (Function.update noChildren ki c1) kk c2) (newFlag cg) ∨
              nn = .short (key.take (prefixLen key k))
                (.full (Function.update (Function.update noChildren ki c1) kk c2) (newFlag cg)) (newFlag cg)) := by
            split at h
            · cases h; exact ⟨rfl, .inl rfl⟩
            · cases h; exact ⟨rfl, .inr rfl⟩
          obtain ⟨rfl, hnn⟩ := hnn
          refine ⟨fun pd hn hv => ?_, fun g hn hle hv => ?_, fun hk hn hv ht => ?_⟩
          · -- every new node is dirty
            have hb : (Node.full (Function.update (Function.update noChildren ki c1) kk c2) (newFlag cg)).DirtyOK true :=
              ⟨fun _ => rfl, update_child (hd2 true trivial hv).weaken
                (update_child (hd1 true trivial hn.2.weaken).weaken fun _ => trivial)⟩
            rcases hnn with rfl | rfl
            · exact hb
            · exact ⟨fun _ => rfl, hb⟩
          · have hb : (Node.full (Function.update (Function.update noChildren ki c1) kk c2) (newFlag cg)).GenOK cg.toNat :=
              ⟨le_refl _, update_child (hg2 0 trivial (Nat.zero_le _) hv)
                (update_child (hg1 0 trivial (Nat.zero_le _) (hn.2.mono (le_trans hn.1 hle))) fun _ => trivial)⟩
            rcases hnn with rfl | rfl
            · exact hb
            · exact ⟨le_refl _, hb⟩
          · -- a key that ends at the branch puts its value in child 16, and that value is clean
            have h16 : (Function.update (Function.update noChildren ki c1) kk c2 16).DirtyOK false := by
              refine update_apply_of (fun hkk16 => ?_) (fun _ => update_apply_of (fun hki16 => ?_) (fun _ => trivial))
              · have h0 := childIndex_terminator (hkk16 ▸ hkk)
                rw [hk.drop_of_getElem h0] at h2
                rw [insert_nil_key h2]
                exact ht (hk.hasTerm_of_getElem h0)
              · have h0 := childIndex_terminator (hki16 ▸ hki)
                rw [hn.1.drop_of_getElem h0] at h1
                rw [insert_nil_key h1]
                exact hn.2.1 (hn.1.hasTerm_of_getElem h0)
            have hb : (Node.full (Function.update (Function.update noChildren ki c1) kk c2) (newFlag cg)).WF :=
              ⟨h16, update_child (hw2 (hk.drop _) trivial hv fun h' => ht (hasTerm_of_drop h'))
                (update_child (hw1 (hn.1.drop _) trivial hn.2.2 fun h' => hn.2.1 (hasTerm_of_drop h')) fun _ => trivial)⟩
            rcases hnn with rfl | rfl
            · exact hb
            · -- the common prefix is a proper prefix of the new key, so it has no terminator
              obtain ⟨hpk, hpt⟩ := keyOK_of_not_mem (hk.not_mem_take hlt)
              exact ⟨hpk, fun h' => absurd h' (by rw [hpt]; decide), hb⟩

end Update

/-! ## Deletes -/

section Delete

variable {db : List UInt8 → Option RawNode} {cg : UInt16}

/-- What `resolve` gives keeps what holds of the node it was given and of every fresh node. -/
theorem resolve_keeps {P : Node → Prop} {n m : Node} {pfx : List UInt8} (hr : resolve db cg n pfx = .ok m) (hn : P n)
    (hf : ∀ m, m.Fresh cg.toNat → P m) : P m := by
  rcases resolve_cases hr with rfl | hm
  · exact hn
  · exact hf m hm

/-- The node `delete` puts in place of a full node whose children have become `c`: a full node again, or a short node
over the one child left, merged with that child when it is a short node. -/
inductive Reduced (db : List UInt8 → Option RawNode) (cg : UInt16) (pfx : List UInt8) (c : Fin 17 → Node) :
    Node → Prop
  | full : Reduced db cg pfx c (.full c (newFlag cg))
  | single (j : Fin 17) : Reduced db cg pfx c (.short [UInt8.ofNat j.val] (c j) (newFlag cg))
  | merge (j : Fin 17) (ck : List UInt8) (cv : Node) (fl : NodeFlag) : j ≠ 16 →
      resolve db cg (c j) pfx = .ok (.short ck cv fl) →
      Reduced db cg pfx c (.short (UInt8.ofNat j.val :: ck) cv (newFlag cg))

variable {pfx : List UInt8} {c : Fin 17 → Node} {nn : Node}

theorem Reduced.dirtyOK (hr : Reduced db cg pfx c nn) (hc : ∀ j, (c j).DirtyOK true) : nn.DirtyOK true := by
  cases hr with
  | full => exact ⟨fun _ => rfl, hc⟩
  | single j => exact ⟨fun _ => rfl, hc j⟩
  | merge j ck cv fl _ hres =>
    have hs : (Node.short ck cv fl).DirtyOK true := resolve_keeps hres (hc j) fun _ hf => hf.dirtyOK.weaken
    exact ⟨fun _ => rfl, hs.2.weaken⟩

theorem Reduced.genOK (hr : Reduced db cg pfx c nn) (hc : ∀ j, (c j).GenOK cg.toNat) : nn.GenOK cg.toNat := by
  cases hr with
  | full => exact ⟨le_refl _, hc⟩
  | single j => exact ⟨le_refl _, hc j⟩
  | merge j ck cv fl _ hres =>
    have hs : (Node.short ck cv fl).GenOK cg.toNat := resolve_keeps hres (hc j) fun _ hf => hf.genOK
    exact ⟨le_refl _, hs.2.mono hs.1⟩

/-- The short node over child 16 has the terminator as its key, and that child is clean; a merged key starts with
another nibble. -/
theorem Reduced.wf (hr : Reduced db cg pfx c nn) (h16 : (c 16).DirtyOK false) (hc : ∀ j, (c j).WF) : nn.WF := by
  cases hr with
  | full => exact ⟨h16, hc⟩
  | single j =>
    refine ⟨by simp [KeyOK], fun ht => ?_, hc j⟩
    have hj : j = 16 := ofNat_nibble_eq_terminator (by simpa [hasTerm] using ht)
    rw [hj]
    exact h16
  | merge j ck cv fl hj hres =>
    have hs : (Node.short ck cv fl).WF := resolve_keeps hres (hc j) fun _ hf => hf.wf
    have hx : 16 ∉ [UInt8.ofNat j.val] := fun hm => hj (ofNat_nibble_eq_terminator (List.mem_singleton.mp hm).symm)
    obtain ⟨hk, ht⟩ := keyOK_append hx hs.1
    exact ⟨hk, fun h => hs.2.1 (ht ▸ h), hs.2.2⟩

/-- What `delete` does at a full node: it deletes in the child of the key's first nibble; when that changed nothing
the node stays, and otherwise it is reduced. -/
theorem delete_full_cases {fuel : Nat} {f : NodeFlag} {key : List UInt8} {d : Bool}
    (h : delete db cg (fuel + 1) (.full c f) pfx key = .ok (d, nn)) :
    ∃ i d' nn', childIndex key 0 = some i ∧ delete db cg fuel (c i) (pfx ++ key.take 1) (key.drop 1) = .ok (d', nn') ∧
      (d' = false ∧ d = false ∧ nn = .full c f ∨ d' = true ∧ d = true ∧ Reduced db cg pfx (Function.update c i nn') nn) := by
  obtain ⟨i, hi⟩ : ∃ i, childIndex key 0 = some i := by
    cases hc : childIndex key 0 with
    | none => simp only [delete, hc] at h; cases h
    | some i => exact ⟨i, rfl⟩
  simp only [delete, hi] at h
  obtain ⟨⟨d', nn'⟩, hrec, h⟩ := except_bind_eq_ok.mp h
  refine ⟨i, d', nn', hi, hrec, ?_⟩
  cases d' with
  | false => cases h; exact .inl ⟨rfl, rfl, rfl⟩
  | true =>
    simp only [Bool.not_true, Bool.false_eq_true, if_false] at h
    -- the position of the one child left, if there is one
    split at h
    · rename_i hpos
      split at h
      · rename_i hne
        obtain ⟨cnode, hres, h⟩ := except_bind_eq_ok.mp h
        split at h
        · cases h
          refine .inr ⟨rfl, rfl, .merge _ _ _ _ (fun heq => hne ?_) hres⟩
          have hval := congrArg Fin.val heq
          simp only at hval
          omega
        · cases h
          exact .inr ⟨rfl, rfl, .single ⟨(remainingPos (Function.update c i nn')).toNat, by omega⟩⟩
      · cases h
        exact .inr ⟨rfl, rfl, .single ⟨(remainingPos (Function.update c i nn')).toNat, by omega⟩⟩
    · cases h
      exact .inr ⟨rfl, rfl, .full⟩

/-- With the key used up, `delete` takes out a value or a short node with an empty key, and changes nothing else: a
clean node stays clean. -/
theorem delete_nil_key : ∀ fuel (n : Node) pfx d nn, delete db cg fuel n pfx [] = .ok (d, nn) →
    n.DirtyOK false → nn.DirtyOK false := by
  intro fuel
  induction fuel with
  | zero => intro _ _ _ _ h; cases h
  | succ fuel ih =>
    intro n pfx d nn h hn
    cases n with
    | short k v f =>
      simp only [delete] at h
      split at h
      · cases h; exact hn
      · split at h
        · cases h; trivial
        · rename_i hne
          exact absurd (by cases k <;> rfl) hne
    | full c f => simp [delete, childIndex] at h
    | value w => cases h; trivial
    | empty => cases h; trivial
    | hash hh =>
      obtain ⟨rn, hrn, h⟩ := except_bind_eq_ok.mp h
      obtain ⟨⟨dirty, nn'⟩, hrec, h⟩ := except_bind_eq_ok.mp h
      have hf := resolveHash_fresh hrn
      cases dirty with
      | false => cases h; exact hf.dirtyOK
      | true => cases h; exact ih rn pfx true _ hrec hf.dirtyOK

/-- What `delete` puts in a node's place. The node itself when nothing changed, or one loaded for it; otherwise new
dirty nodes of the current generation over the old children and what was deleted in them, reduced. -/
theorem delete_keeps : ∀ fuel (n : Node) pfx key d nn, delete db cg fuel n pfx key = .ok (d, nn) →
    (∀ pd, n.DirtyOK pd → nn.DirtyOK (d || pd)) ∧
      (∀ g, n.GenOK g → g ≤ cg.toNat → nn.GenOK cg.toNat) ∧
      (KeyOK key → n.WF → nn.WF) := by
  intro fuel
  induction fuel with
  | zero => intro _ _ _ _ _ h; cases h
  | succ fuel ih =>
    intro n pfx key d nn h
    cases n with
    | empty => cases h; exact ⟨fun _ _ => trivial, fun _ _ _ => trivial, fun _ _ => trivial⟩
    | value w => cases h; exact ⟨fun _ _ => trivial, fun _ _ _ => trivial, fun _ _ => trivial⟩
    | hash hh =>
      obtain ⟨rn, hrn, h⟩ := except_bind_eq_ok.mp h
      obtain ⟨⟨dirty, nn'⟩, hrec, h⟩ := except_bind_eq_ok.mp h
      have hf := resolveHash_fresh hrn
      obtain ⟨hd, hg, hw⟩ := ih rn pfx key dirty nn' hrec
      cases dirty with
      | false =>
        cases h
        exact ⟨fun pd _ => hf.dirtyOK.of_false _, fun _ _ _ => hf.genOK, fun _ _ => hf.wf⟩
      | true =>
        cases h
        exact ⟨fun pd _ => hd pd (hf.dirtyOK.of_false pd), fun _ _ _ => hg _ hf.genOK (le_refl _),
          fun hk _ => hw hk hf.wf⟩
    | full c f =>
      obtain ⟨i, d', nn', hi, hrec, ⟨-, rfl, rfl⟩ | ⟨rfl, rfl, hred⟩⟩ := delete_full_cases h
      · exact ⟨fun _ hn => hn, fun _ hn hle => hn.mono hle, fun _ hn => hn⟩
      · obtain ⟨hd, hg, hw⟩ := ih (c i) _ _ true nn' hrec
        refine ⟨fun pd hn => hred.dirtyOK (update_child (hd _ (hn.2 i)).weaken fun j => (hn.2 j).weaken),
          fun g hn hle => hred.genOK (update_child (hg _ (hn.2 i) (le_trans hn.1 hle))
            fun j => (hn.2 j).mono (le_trans hn.1 hle)),
          fun hk hn => hred.wf ?_ (update_child (hw (hk.drop 1) (hn.2 i)) hn.2)⟩
        -- child 16 is deleted from with the key used up, or kept
        refine update_apply_of (fun h16 => ?_) (fun _ => hn.1)
        have h0 : key[0]? = some 16 := childIndex_terminator (h16 ▸ hi)
        rw [hk.drop_of_getElem h0] at hrec
        exact delete_nil_key _ _ _ _ _ hrec (h16 ▸ hn.1)
    | short k v f =>
      simp only [delete] at h
      split at h
      · cases h
        exact ⟨fun _ hn => hn, fun _ hn hle => hn.mono hle, fun _ hn => hn⟩
      · split at h
        · cases h
          exact ⟨fun _ _ => trivial, fun _ _ _ => trivial, fun _ _ => trivial⟩
        · -- the key goes through the short node's key and on
          rename_i hlt hne
          have hm : prefixLen key k = k.length := le_antisymm (prefixLen_le_right _ _) (Nat.not_lt.mp hlt)
          obtain ⟨⟨dirty, child⟩, hrec, h⟩ := except_bind_eq_ok.mp h
          obtain ⟨hd, hg, hw⟩ := ih v _ _ dirty child hrec
          cases dirty with
          | false =>
            cases h
            exact ⟨fun _ hn => hn, fun _ hn hle => hn.mono hle, fun _ hn => hn⟩
          | true =>
            -- so the short node's key has no terminator
            have hkt : KeyOK key → hasTerm k = false := by
              intro hk
              cases hkt : hasTerm k with
              | false => rfl
              | true => exact absurd (by rw [hm, hk.eq_of_prefixLen hm hkt]) hne
            simp only [Bool.not_true, Bool.false_eq_true, if_false] at h
            split at h
            · -- a short child is merged into the node
              rename_i ck cv fl
              cases h
              refine ⟨fun pd hn => ⟨fun _ => rfl, (hd _ hn.2).2.weaken⟩, fun g hn hle => ?_, fun hk hn => ?_⟩
              · have hc := hg _ hn.2 (le_trans hn.1 hle)
                exact ⟨le_refl _, hc.2.mono hc.1⟩
              · have hc := hw (hk.drop _) hn.2.2
                obtain ⟨hk', ht'⟩ := keyOK_append (hn.1.not_mem (hkt hk)) hc.1
                exact ⟨hk', fun h' => hc.2.1 (ht' ▸ h'), hc.2.2⟩
            · cases h
              exact ⟨fun pd hn => ⟨fun _ => rfl, (hd _ hn.2).weaken⟩,
                fun g hn hle => ⟨le_refl _, hg _ hn.2 (le_trans hn.1 hle)⟩,
                fun hk hn => ⟨hn.1, fun h' => absurd h' (by rw [hkt hk]; decide), hw (hk.drop _) hn.2.2⟩⟩

end Delete

/-! ## Hashing and committing -/

section Hash

variable {encode : Node → List UInt8} {keccak : List UInt8 → List UInt8} {hs : Hasher} {commit : Bool}

/-- What `hash` keeps of a node `n` in the node `cached` it keeps in memory: generations and shape, and the dirty flags,
which commit mode clears. -/
def Cached (commit : Bool) (n cached : Node) : Prop :=
  (∀ g, n.GenOK g → cached.GenOK g) ∧
    (n.WF → cached.WF ∧ ∀ pd, n.DirtyOK pd → cached.DirtyOK (if commit then false else pd))

theorem cached_hash (n : Node) (h : List UInt8) : Cached commit n (.hash h) :=
  ⟨fun _ _ => trivial, fun _ => ⟨trivial, fun _ _ => trivial⟩⟩

/-- A node kept as it is, clean if it is kept by a commit. -/
theorem cached_self {n : Node} (hc : commit = true → n.isDirty = false) : Cached commit n n := by
  refine ⟨fun _ h => h, fun hw => ⟨hw, fun pd hd => ?_⟩⟩
  cases commit with
  | false => exact hd
  | true => exact hd.clean (hc rfl)

/-- The cached hash of a node: in commit mode a node that can be unloaded is replaced by it, and a clean one is kept. -/
theorem fromCache_cached {n : Node} {f : NodeFlag} {hashed cached : Node} (hf : n.isDirty = f.dirty)
    (h : hs.fromCache commit n f = some (hashed, cached)) : Cached commit n cached := by
  simp only [Hasher.fromCache] at h
  split at h
  · cases h
  · split at h
    · rename_i hc
      cases h
      exact cached_self fun hcom => by simp [hcom] at hc
    · split at h
      · cases h
        exact cached_hash _ _
      · split at h
        · rename_i hd
          cases h
          exact cached_self fun _ => by simpa [hf] using hd
        · cases h

/-- A short node is kept over the value it keeps, with its flags' dirty bit cleared in commit mode. -/
theorem cached_short {k : List UInt8} {v cv : Node} {f : NodeFlag} (hashed : Node) (hv : Cached commit v cv) :
    Cached commit (.short k v f) (.short k cv (f.setCache hashed commit)) := by
  refine ⟨fun g hg => ⟨hg.1, hv.1 _ hg.2⟩, fun hw => ⟨⟨hw.1, fun ht => ?_, (hv.2 hw.2.2).1⟩, fun pd hd => ⟨?_, ?_⟩⟩⟩
  · have := (hv.2 hw.2.2).2 false (hw.2.1 ht)
    cases commit <;> exact this
  · cases commit with
    | false => exact hd.1
    | true => nofun
  · exact (hv.2 hw.2.2).2 f.dirty hd.2

/-- A full node is kept over the children it keeps; a child left as it was is empty or the terminator's. -/
theorem cached_full {c cc : Fin 17 → Node} {f : NodeFlag} (hashed : Node)
    (hc : ∀ j, Cached commit (c j) (cc j) ∨ (cc j = c j ∧ (c j = .empty ∨ j = 16))) :
    Cached commit (.full c f) (.full cc (f.setCache hashed commit)) := by
  refine ⟨fun g hg => ⟨hg.1, fun j => ?_⟩, fun hw => ⟨⟨?_, fun j => ?_⟩, fun pd hd => ⟨?_, fun j => ?_⟩⟩⟩
  · rcases hc j with hj | ⟨heq, -⟩
    · exact hj.1 _ (hg.2 j)
    · exact heq ▸ hg.2 j
  · rcases hc 16 with hj | ⟨heq, -⟩
    · have := (hj.2 (hw.2 16)).2 false hw.1
      cases commit <;> exact this
    · exact heq ▸ hw.1
  · rcases hc j with hj | ⟨heq, -⟩
    · exact (hj.2 (hw.2 j)).1
    · exact heq ▸ hw.2 j
  · cases commit with
    | false => exact hd.1
    | true => nofun
  · -- the children are clean after a commit, and the terminator's was clean before
    rcases hc j with hj | ⟨heq, hj⟩
    · exact (hj.2 (hw.2 j)).2 f.dirty (hd.2 j)
    · rw [heq]
      rcases hj with hj | rfl
      · rw [hj]; trivial
      · exact hw.1.of_false _

/-- `hash` keeps what `Cached` says of every node; it does not touch child 16 of a full node, nor an empty child. -/
theorem hash_cached : ∀ (n : Node) force hashed cached, hs.hash encode keccak commit n force = some (hashed, cached) →
    Cached commit n cached := by
  intro n
  induction n with
  | empty => intro _ _ _ h; cases h
  | hash hh => intro _ _ _ h; cases h; exact cached_hash _ _
  | value w => intro _ _ _ h; cases h; exact cached_self fun _ => rfl
  | short k v f ih =>
    intro force hashed cached h
    simp only [Hasher.hash] at h
    split at h
    · cases h
      exact fromCache_cached rfl ‹_›
    · obtain ⟨ck, -, h⟩ := Option.bind_eq_some_iff.mp h
      -- a value is kept as it is, and any other node hashed
      split at h
      · cases h
        exact cached_short _ (cached_self fun _ => rfl)
      · obtain ⟨⟨cv1, cv2⟩, hv, h⟩ := Option.bind_eq_some_iff.mp h
        cases h
        exact cached_short _ (ih _ _ _ hv)
  | full c f ih =>
    intro force hashed cached h
    simp only [Hasher.hash] at h
    split at h
    · cases h
      exact fromCache_cached rfl ‹_›
    · obtain ⟨⟨coll, cc⟩, hloop, h⟩ := Option.bind_eq_some_iff.mp h
      cases h
      -- the loop over children 0 to 15 hashes each child that is not empty
      have hch := FoldM.foldlM_update_spec Fin.castSucc (fun j => c j = .empty) (fun j x => Cached commit (c j) x) _
        (fun acc i acc' hstep => by
          split at hstep
          · rename_i he
            cases hstep
            exact .inl ⟨he, rfl⟩
          · obtain ⟨⟨hc, ccj⟩, hh, hstep⟩ := Option.bind_eq_some_iff.mp hstep
            cases hstep
            exact .inr ⟨ccj, ih _ _ _ _ hh, rfl⟩) _ (c, c) (coll, cc) hloop
      refine cached_full _ fun j => ?_
      rcases hch j with ⟨heq, hj⟩ | hj
      · refine .inr ⟨heq, ?_⟩
        by_cases h16 : j = 16
        · exact .inr h16
        · -- a child below 16 was visited
          have hlt : j.val < 16 := by have := j.isLt; have : j.val ≠ 16 := fun h => h16 (Fin.ext h); omega
          exact .inl (hj ⟨j.val, hlt⟩ (List.mem_finRange _) rfl)
      · exact .inl hj

end Hash

/-! ## Nodes under a node -/

/-- `m` is `n` or a node under it in memory: a child of a full node or the value of a short node, and so on down. -/
inductive Node.Sub : Node → Node → Prop
  | refl (n : Node) : Node.Sub n n
  | full {m : Node} {c : Fin 17 → Node} {f : NodeFlag} (i : Fin 17) : Node.Sub m (c i) → Node.Sub m (.full c f)
  | short {m : Node} {k : List UInt8} {v : Node} {f : NodeFlag} : Node.Sub m v → Node.Sub m (.short k v f)

/-- Every node under a node with dirty nodes under dirty parents has them too, under some parent flag. -/
theorem Node.DirtyOK.sub {n m : Node} {pd : Bool} (h : n.DirtyOK pd) (hs : m.Sub n) : ∃ pd', m.DirtyOK pd' := by
  induction hs generalizing pd with
  | refl => exact ⟨pd, h⟩
  | full i _ ih => exact ih (h.2 i)
  | short _ ih => exact ih h.2

/-- A node whose children count as clean under it is not dirty itself. -/
theorem Node.DirtyOK.isDirty_false {n : Node} (h : n.DirtyOK false) : n.isDirty = false := by
  cases n with
  | full c f => exact Bool.eq_false_iff.mpr fun hd => Bool.false_ne_true (h.1 hd)
  | short k v f => exact Bool.eq_false_iff.mpr fun hd => Bool.false_ne_true (h.1 hd)
  | _ => rfl

/-- Under a node that is all clean, every node is clean. -/
theorem Node.DirtyOK.sub_clean {n m : Node} (h : n.DirtyOK false) (hs : m.Sub n) : m.isDirty = false := by
  induction hs with
  | refl => exact h.isDirty_false
  | full i _ ih =>
    have hf := h.isDirty_false
    exact ih (hf ▸ h.2 i)
  | short _ ih =>
    have hf := h.isDirty_false
    exact ih (hf ▸ h.2)

/-- A node that may be unloaded is clean, and so is every node under it. -/
theorem Node.DirtyOK.unload_clean {n : Node} {pd : Bool} {g l : UInt16} (h : n.DirtyOK pd) (hu : n.canUnload g l = true) :
    ∀ m : Node, m.Sub n → m.isDirty = false := by
  have hn : n.isDirty = false := by
    cases n with
    | full c f => simpa [Node.canUnload, NodeFlag.canUnload, Node.isDirty] using ((Bool.and_eq_true _ _).mp hu).1
    | short k v f => simpa [Node.canUnload, NodeFlag.canUnload, Node.isDirty] using ((Bool.and_eq_true _ _).mp hu).1
    | _ => rfl
  exact fun m hm => (h.clean hn).sub_clean hm

/-! ## Runs -/

variable {encode : Node → List UInt8} {keccak : List UInt8 → List UInt8} {fuel : Nat}

theorem Trie.run_append (t : Trie) (ops ops' : List Op) :
    t.run encode keccak fuel (ops ++ ops') = (t.run encode keccak fuel ops).bind fun t => t.run encode keccak fuel ops' := by
  induction ops generalizing t with
  | nil => rfl
  | cons op ops ih =>
    simp only [List.cons_append, Trie.run]
    cases t.step encode keccak fuel op with
    | none => rfl
    | some t' => exact ih t'

/-- The trie `New` makes holds the cache invariant and the shape, at generation 0: it is empty, or its root was loaded
at generation 0. -/
theorem newTrie_inv {db : List UInt8 → Option RawNode} {root : List UInt8} {t : Trie} (h : newTrie db root = .ok t) :
    t.CacheInv ∧ t.root.WF ∧ t.cachegen = 0 := by
  unfold newTrie at h
  split at h
  · cases h
    exact ⟨⟨trivial, trivial⟩, trivial, rfl⟩
  · obtain ⟨rn, hrn, h⟩ := except_bind_eq_ok.mp h
    cases h
    have hf := resolveHash_fresh hrn
    exact ⟨⟨hf.genOK, hf.dirtyOK.weaken⟩, hf.wf, rfl⟩

/-- `Commit` on an empty trie only moves to the next generation. -/
theorem Trie.step_commit_empty (g l : UInt16) :
    (⟨.empty, g, l⟩ : Trie).step encode keccak fuel .commit = some ⟨.empty, g + 1, l⟩ := rfl

/-- The trie after an operation keeps what holds of its root and of the root the operation returned. -/
theorem Trie.afterOp_keeps {P : Node → Prop} {t t' : Trie} {r : Except TrieError Node} (h : t.afterOp r = some t')
    (ht : P t.root) (hr : ∀ root, r = .ok root → P root) : P t'.root ∧ t'.cachegen = t.cachegen := by
  unfold Trie.afterOp at h
  split at h
  · cases h
    exact ⟨hr _ rfl, rfl⟩
  · cases h
    exact ⟨ht, rfl⟩
  · cases h

/-- What `hashRoot` keeps in memory for the root. -/
theorem Trie.hashRoot_cached {t : Trie} {commit : Bool} {hashed cached : Node}
    (h : t.hashRoot encode keccak commit = some (hashed, cached)) : Cached commit t.root cached := by
  unfold Trie.hashRoot at h
  split at h
  · rename_i hroot
    cases h
    rw [hroot]
    exact cached_self fun _ => rfl
  · exact hash_cached _ _ _ _ h

/-- Every operation keeps dirty nodes under dirty parents, and the shape. -/
theorem Trie.step_dirtyOK {t t' : Trie} {op : Op} (h : t.step encode keccak fuel op = some t')
    (hi : t.root.DirtyOK true ∧ t.root.WF) : t'.root.DirtyOK true ∧ t'.root.WF := by
  cases op with
  | tryGet db key =>
    refine (Trie.afterOp_keeps (P := fun n => n.DirtyOK true ∧ n.WF) h hi fun root hr => ?_).1
    obtain ⟨⟨v, newroot, didResolve⟩, hg, rfl⟩ := except_map_eq_ok.mp hr
    obtain ⟨-, hd, -, hw⟩ := tryGet_keeps _ _ _ _ _ _ _ hg
    cases didResolve
    · exact hi
    · exact ⟨hd _ hi.1, hw hi.2⟩
  | tryUpdate db key value =>
    simp only [Trie.step] at h
    split at h
    · refine (Trie.afterOp_keeps (P := fun n => n.DirtyOK true ∧ n.WF) h hi fun root hr => ?_).1
      obtain ⟨⟨d, nn⟩, hins, rfl⟩ := except_map_eq_ok.mp hr
      obtain ⟨hd, -, hw⟩ := insert_keeps _ _ _ _ _ _ _ hins
      exact ⟨(hd true hi.1 trivial).weaken, hw (keyOK_keybytesToHex key) hi.2 trivial fun _ => trivial⟩
    · refine (Trie.afterOp_keeps (P := fun n => n.DirtyOK true ∧ n.WF) h hi fun root hr => ?_).1
      obtain ⟨⟨d, nn⟩, hdel, rfl⟩ := except_map_eq_ok.mp hr
      obtain ⟨hd, -, hw⟩ := delete_keeps _ _ _ _ _ _ hdel
      exact ⟨(hd true hi.1).weaken, hw (keyOK_keybytesToHex key) hi.2⟩
  | tryDelete db key =>
    refine (Trie.afterOp_keeps (P := fun n => n.DirtyOK true ∧ n.WF) h hi fun root hr => ?_).1
    obtain ⟨⟨d, nn⟩, hdel, rfl⟩ := except_map_eq_ok.mp hr
    obtain ⟨hd, -, hw⟩ := delete_keeps _ _ _ _ _ _ hdel
    exact ⟨(hd true hi.1).weaken, hw (keyOK_keybytesToHex key) hi.2⟩
  | hash =>
    obtain ⟨⟨hashed, cached⟩, hh, rfl⟩ := Option.map_eq_some_iff.mp h
    have hc := (Trie.hashRoot_cached hh).2 hi.2
    exact ⟨hc.2 true hi.1, hc.1⟩
  | commit =>
    obtain ⟨⟨hashed, cached⟩, hh, rfl⟩ := Option.map_eq_some_iff.mp h
    have hc := (Trie.hashRoot_cached hh).2 hi.2
    exact ⟨(hc.2 true hi.1).weaken, hc.1⟩
  | setCacheLimit l =>
    cases h
    exact hi

/-- Whether an operation is a `Commit`. -/
def Op.isCommit : Op → Bool
  | .commit => true
  | _ => false

/-- Every operation keeps generations at most `cachegen`, as long as a commit does not wrap it; only a commit moves
`cachegen`, by one. -/
theorem Trie.step_genOK {t t' : Trie} {op : Op} (h : t.step encode keccak fuel op = some t')
    (hg : t.root.GenOK t.cachegen.toNat) (hc : op.isCommit = true → t.cachegen.toNat < 65535) :
    t'.root.GenOK t'.cachegen.toNat ∧ t'.cachegen.toNat = t.cachegen.toNat + (if op.isCommit then 1 else 0) := by
  -- the operations other than a commit keep `cachegen`
  have hkeep : ∀ {r : Except TrieError Node}, t.afterOp r = some t' →
      (∀ root, r = .ok root → root.GenOK t.cachegen.toNat) →
      t'.root.GenOK t'.cachegen.toNat ∧ t'.cachegen.toNat = t.cachegen.toNat := by
    intro r h hr
    obtain ⟨hroot, hcg⟩ := Trie.afterOp_keeps h hg hr
    rw [hcg]
    exact ⟨hroot, rfl⟩
  cases op with
  | tryGet db key =>
    refine hkeep h fun root hr => ?_
    obtain ⟨⟨v, newroot, didResolve⟩, hget, rfl⟩ := except_map_eq_ok.mp hr
    cases didResolve
    · exact hg
    · exact (tryGet_keeps _ _ _ _ _ _ _ hget).2.2.1 _ hg (le_refl _)
  | tryUpdate db key value =>
    simp only [Trie.step] at h
    split at h
    · refine hkeep h fun root hr => ?_
      obtain ⟨⟨d, nn⟩, hins, rfl⟩ := except_map_eq_ok.mp hr
      exact (insert_keeps _ _ _ _ _ _ _ hins).2.1 _ hg (le_refl _) trivial
    · refine hkeep h fun root hr => ?_
      obtain ⟨⟨d, nn⟩, hdel, rfl⟩ := except_map_eq_ok.mp hr
      exact (delete_keeps _ _ _ _ _ _ hdel).2.1 _ hg (le_refl _)
  | tryDelete db key =>
    refine hkeep h fun root hr => ?_
    obtain ⟨⟨d, nn⟩, hdel, rfl⟩ := except_map_eq_ok.mp hr
    exact (delete_keeps _ _ _ _ _ _ hdel).2.1 _ hg (le_refl _)
  | hash =>
    obtain ⟨⟨hashed, cached⟩, hh, rfl⟩ := Option.map_eq_some_iff.mp h
    exact ⟨(Trie.hashRoot_cached hh).1 _ hg, rfl⟩
  | commit =>
    obtain ⟨⟨hashed, cached⟩, hh, rfl⟩ := Option.map_eq_some_iff.mp h
    -- below 65535 the next generation is one more
    have hnext : (t.cachegen + 1).toNat = t.cachegen.toNat + 1 := by
      have := hc rfl
      rw [UInt16.toNat_add, UInt16.toNat_one]
      omega
    refine ⟨?_, hnext⟩
    simp only
    rw [hnext]
    exact ((Trie.hashRoot_cached hh).1 _ hg).mono (Nat.le_succ _)
  | setCacheLimit l =>
    cases h
    exact ⟨hg, rfl⟩

/-- Dirty nodes stay under dirty parents, and the shape is kept, over every run. -/
theorem Trie.run_dirtyOK : ∀ (ops : List Op) (t t' : Trie), t.run encode keccak fuel ops = some t' →
    t.root.DirtyOK true ∧ t.root.WF → t'.root.DirtyOK true ∧ t'.root.WF := by
  intro ops
  induction ops with
  | nil => intro t t' h hi; cases h; exact hi
  | cons op ops ih =>
    intro t t' h hi
    obtain ⟨t1, h1, h⟩ := Option.bind_eq_some_iff.mp h
    exact ih t1 t' h (Trie.step_dirtyOK h1 hi)

/-- Generations stay at most `cachegen` over every run with fewer commits than it takes to wrap it. -/
theorem Trie.run_genOK : ∀ (ops : List Op) (t t' : Trie), t.run encode keccak fuel ops = some t' →
    t.root.GenOK t.cachegen.toNat → t.cachegen.toNat + (ops.filter Op.isCommit).length ≤ 65535 →
    t'.root.GenOK t'.cachegen.toNat := by
  intro ops
  induction ops with
  | nil => intro t t' h hg _; cases h; exact hg
  | cons op ops ih =>
    intro t t' h hg hn
    obtain ⟨t1, h1, h⟩ := Option.bind_eq_some_iff.mp h
    rw [List.filter_cons] at hn
    obtain ⟨hg1, hcg⟩ := Trie.step_genOK h1 hg fun hc => by
      rw [if_pos hc, List.length_cons] at hn
      omega
    refine ih t1 t' h hg1 ?_
    rw [hcg]
    split at hn
    · rename_i hc
      rw [if_pos hc]
      simp only [List.length_cons] at hn
      omega
    · rename_i hc
      rw [if_neg hc]
      omega

/-- `n` commits on an empty trie move `cachegen` on by `n`, in `uint16` arithmetic. -/
theorem Trie.run_commits_empty (n : Nat) (g l : UInt16) :
    (⟨.empty, g, l⟩ : Trie).run encode keccak fuel (List.replicate n .commit) =
      some ⟨.empty, g + UInt16.ofNat n, l⟩ := by
  induction n generalizing g with
  | zero => simp [Trie.run]
  | succ n ih =>
    rw [List.replicate_succ, Trie.run, Trie.step_commit_empty, Option.bind_some, ih]
    congr 2
    rw [UInt16.ofNat_add, UInt16.ofNat_one, UInt16.add_assoc, UInt16.add_comm 1]

end Etherzero.Trie
