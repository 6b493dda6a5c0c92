import Mathlib
import Etherzero.Lemmas.TrieCache
import Etherzero.Theorems.TrieEncoding

set_option linter.dupNamespace false

/-!
# The trie in memory holds a map

`Node.get` reads the value under a key off a node held in memory, with no fuel and no database: it is what `tryGet`
finds there, and `none` where `tryGet` would panic or load a node (`tryGet_of_get`). Over it, `insert` puts the value
under its key and leaves every other key as it was, and `delete` empties its key and leaves every other key as it was
(`insert_get_self`, `insert_get_other`, `delete_get_self`, `delete_get_other`). The keys are hex keys as
`keybytesToHex` makes them: nibbles below 16 and then the terminator 16 (`HexKey`). The nodes are those with no
`hashNode` in them (`Node.NoHash`), which is what a trie built in memory from the empty one is.
-/

namespace Etherzero.Trie

/-! ## The map of a node in memory -/

/-- The value under `key` in a node held in memory, as `tryGet` finds it: `some none` where there is none, and
`none` where `tryGet` panics (a key that ends at a full node, a nibble above 16) or would load a `hashNode`. -/
def Node.get : Node → List UInt8 → Option (Option (List UInt8))
  | .empty, _ => some none
  | .value v, _ => some (some v)
  | .short k v _, key => if key.take k.length = k then v.get (key.drop k.length) else some none
  | .full _ _, [] => none
  | .full c _, b :: rest => if h : b.toNat < 17 then (c ⟨b.toNat, h⟩).get rest else none
  | .hash _, _ => none

/-- No `hashNode` anywhere in the node: the whole node is in memory. -/
def Node.NoHash : Node → Prop
  | .full c _ => ∀ i, (c i).NoHash
  | .short _ v _ => v.NoHash
  | .hash _ => False
  | _ => True

/-- A key as `keybytesToHex` makes it: nibbles below 16, then the terminator 16. -/
def HexKey : List UInt8 → Prop
  | [] => False
  | b :: rest => (rest = [] ∧ b = 16) ∨ (b < 16 ∧ HexKey rest)

@[simp] theorem Node.get_empty (key : List UInt8) : Node.empty.get key = some none := rfl

@[simp] theorem Node.get_value (v key : List UInt8) : (Node.value v).get key = some (some v) := rfl

theorem Node.get_short (k : List UInt8) (v : Node) (f : NodeFlag) (key : List UInt8) :
    (Node.short k v f).get key = if key.take k.length = k then v.get (key.drop k.length) else some none := rfl

@[simp] theorem Node.get_full_nil (c : Fin 17 → Node) (f : NodeFlag) : (Node.full c f).get [] = none := rfl

theorem Node.get_full_cons (c : Fin 17 → Node) (f : NodeFlag) {b : UInt8} (hb : b.toNat < 17) (rest : List UInt8) :
    (Node.full c f).get (b :: rest) = (c ⟨b.toNat, hb⟩).get rest := by
  simp [Node.get, hb]

theorem Node.get_full_flag (c : Fin 17 → Node) (f f' : NodeFlag) (key : List UInt8) :
    (Node.full c f).get key = (Node.full c f').get key := by
  cases key <;> rfl

/-- A short node over a key shows its child's map behind the key. -/
theorem Node.get_short_append (k : List UInt8) (v : Node) (f : NodeFlag) (rest : List UInt8) :
    (Node.short k v f).get (k ++ rest) = v.get rest := by
  simp [Node.get_short]

/-- The flags of a short node do not change its map. -/
theorem Node.get_short_flag (k : List UInt8) (v : Node) (f f' : NodeFlag) (key : List UInt8) :
    (Node.short k v f).get key = (Node.short k v f').get key := rfl

/-- The keys of a short node are the keys of its child behind its own key: two short nodes in a row read as one. -/
theorem Node.get_short_short (k ck : List UInt8) (cv : Node) (f f' f'' : NodeFlag) (key : List UInt8) :
    (Node.short (k ++ ck) cv f).get key = (Node.short k (.short ck cv f') f'').get key := by
  simp only [Node.get_short, List.length_append]
  by_cases hk : key.take k.length = k
  · rw [if_pos hk, ← List.drop_drop]
    have hsplit : key.take (k.length + ck.length) = k ++ (key.drop k.length).take ck.length := by
      rw [List.take_add, hk]
    simp only [hsplit, List.append_cancel_left_eq]
  · rw [if_neg hk, if_neg]
    intro h
    apply hk
    have := congrArg (List.take k.length) h
    rwa [List.take_take, Nat.min_eq_left (Nat.le_add_right _ _), List.take_left] at this

/-! ## Hex keys -/

theorem HexKey.ne_nil {k : List UInt8} (h : HexKey k) : k ≠ [] := by
  rintro rfl
  exact h

theorem hexKey_cons {b : UInt8} {rest : List UInt8} :
    HexKey (b :: rest) ↔ (rest = [] ∧ b = 16) ∨ (b < 16 ∧ HexKey rest) := Iff.rfl

/-- Every nibble of a hex key is at most 16. -/
theorem HexKey.le {k : List UInt8} (h : HexKey k) : ∀ b ∈ k, b.toNat < 17 := by
  induction k with
  | nil => exact fun _ hb => absurd hb List.not_mem_nil
  | cons x rest ih =>
    intro b hb
    rcases hexKey_cons.mp h with ⟨rfl, rfl⟩ | ⟨hx, hr⟩
    · rw [List.mem_singleton.mp hb]
      decide
    · rcases List.mem_cons.mp hb with rfl | hb
      · have := UInt8.lt_iff_toNat_lt.mp hx
        simp only [UInt8.toNat_ofNat] at this
        omega
      · exact ih hr b hb

theorem hexKey_keybytesToHex (bs : List UInt8) : HexKey (keybytesToHex bs) := by
  rw [keybytesToHex_eq]
  induction bs with
  | nil => exact .inl ⟨rfl, rfl⟩
  | cons x rest ih =>
    have hx := x.toNat_lt
    have hhi : x / 16 < 16 := by rw [UInt8.lt_iff_toNat_lt, UInt8.toNat_div]; simp; omega
    have hlo : x % 16 < 16 := by rw [UInt8.lt_iff_toNat_lt, UInt8.toNat_mod]; simp; omega
    simp only [keyNibbles]
    exact .inr ⟨hhi, .inr ⟨hlo, ih⟩⟩

/-- A hex key that starts another hex key is that key: the terminator ends both. -/
theorem HexKey.eq_of_take {a b : List UInt8} (ha : HexKey a) (hb : HexKey b) (h : b.take a.length = a) : a = b := by
  induction a generalizing b with
  | nil => exact absurd ha id
  | cons x rest ih =>
    cases b with
    | nil => simp at h
    | cons y rest' =>
      simp only [List.length_cons, List.take_succ_cons, List.cons.injEq] at h
      obtain ⟨rfl, h⟩ := h
      rcases hexKey_cons.mp ha with ⟨rfl, rfl⟩ | ⟨hy, hr⟩
      · rcases hexKey_cons.mp hb with ⟨rfl, -⟩ | ⟨hy, -⟩
        · rfl
        · exact absurd hy (by decide)
      · rcases hexKey_cons.mp hb with ⟨rfl, rfl⟩ | ⟨-, hr'⟩
        · exact absurd hy (by decide)
        · rw [ih hr hr' h]

/-- What is left of a hex key past some of its nibbles, if anything, is a hex key. -/
theorem HexKey.drop {k : List UInt8} (h : HexKey k) {n : Nat} (hn : n < k.length) : HexKey (k.drop n) := by
  induction k generalizing n with
  | nil => exact absurd hn (by simp)
  | cons x rest ih =>
    cases n with
    | zero => exact h
    | succ n =>
      rcases hexKey_cons.mp h with ⟨rfl, -⟩ | ⟨-, hr⟩
      · simp at hn
      · exact ih hr (by simpa using hn)

/-- Two distinct hex keys with a common start differ past it, where both are hex keys again. -/
theorem HexKey.drop_of_take {key key' p : List UInt8} (h : HexKey key) (h' : HexKey key') (hne : key ≠ key')
    (hp : key.take p.length = p) (hp' : key'.take p.length = p) :
    HexKey (key.drop p.length) ∧ HexKey (key'.drop p.length) ∧ key.drop p.length ≠ key'.drop p.length := by
  -- the common start is shorter than both keys, or one key would start the other
  have hlt : p.length < key.length := by
    by_contra hle
    have hkp : key = p := by rw [← hp, List.take_of_length_le (by omega)]
    exact hne (h.eq_of_take h' (by rw [hkp, hp']))
  have hlt' : p.length < key'.length := by
    by_contra hle
    have hkp : key' = p := by rw [← hp', List.take_of_length_le (by omega)]
    exact hne (h'.eq_of_take h (by rw [hkp]; exact hp)).symm
  refine ⟨h.drop hlt, h'.drop hlt', fun hd => hne ?_⟩
  rw [← List.take_append_drop p.length key, ← List.take_append_drop p.length key', hp, hp', hd]

/-- A hex key ends with the terminator. -/
theorem HexKey.hasTerm_true {k : List UInt8} (h : HexKey k) : hasTerm k = true := by
  induction k with
  | nil => exact absurd h id
  | cons x rest ih =>
    rcases hexKey_cons.mp h with ⟨rfl, rfl⟩ | ⟨-, hr⟩
    · rfl
    · obtain ⟨y, ys, rfl⟩ := List.exists_cons_of_ne_nil hr.ne_nil
      simpa [Trie.hasTerm] using ih hr

/-- A hex key has the terminator only at its end. -/
theorem HexKey.keyOK {k : List UInt8} (h : HexKey k) : KeyOK k := by
  induction k with
  | nil => exact absurd h id
  | cons x rest ih =>
    rcases hexKey_cons.mp h with ⟨rfl, -⟩ | ⟨hx, hr⟩
    · simp [KeyOK]
    · have hx16 : x ≠ 16 := by rintro rfl; exact absurd hx (by decide)
      rw [KeyOK, List.dropLast_cons_of_ne_nil hr.ne_nil, List.mem_cons, not_or]
      exact ⟨hx16.symm, ih hr⟩

/-! ## The shape of a trie built in memory -/

/-- A key a short node holds: not empty, nibbles up to the terminator, and the terminator at most at its end. -/
def ShortKey (k : List UInt8) : Prop := k ≠ [] ∧ KeyOK k ∧ ∀ b ∈ k, b.toNat < 17

/-- What is left of a hex key at a node: nothing past the terminator (`t`), a hex key before it. -/
def HexRest : Bool → List UInt8 → Prop
  | true, key => key = []
  | false, key => HexKey key

/-- What a short node holds: a full node, or a value. -/
def Node.FullOrValue : Node → Prop
  | .full _ _ | .value _ => True
  | _ => False

/-- The nodes of a trie built in memory under hex keys, at a node whose path ends with the terminator when `t` holds:
no `hashNode`; a value only past the terminator and nothing else there; short keys as `ShortKey` says, over a full node
or a value; and the terminator child of a full node past the terminator. -/
def Node.Shaped : Bool → Node → Prop
  | _, .empty => True
  | t, .value _ => t = true
  | false, .short k v _ => ShortKey k ∧ v.Shaped (hasTerm k) ∧ v.FullOrValue
  | false, .full c _ => ∀ i, (c i).Shaped (decide (i = 16))
  | _, _ => False

theorem Node.Shaped.noHash : ∀ {n : Node} {t : Bool}, n.Shaped t → n.NoHash
  | .empty, _, _ => trivial
  | .value _, _, _ => trivial
  | .short _ v _, false, h => Node.Shaped.noHash (n := v) h.2.1
  | .full c _, false, h => fun i => Node.Shaped.noHash (n := c i) (h i)

/-- Past the key of a short node that a hex key goes through, what is left is the rest of a hex key. -/
theorem HexKey.rest_short {k key : List UInt8} (h : HexKey key) (hpre : key.take k.length = k) :
    HexRest (hasTerm k) (key.drop k.length) := by
  cases ht : hasTerm k with
  | true =>
    -- the key of the short node ends with the terminator, so it is the whole key
    have heq := h.keyOK.eq_of_take hpre ht
    rw [heq]
    exact List.drop_length
  | false =>
    refine h.drop (Nat.lt_of_not_le fun hle => ?_)
    rw [List.take_of_length_le hle] at hpre
    rw [← hpre, h.hasTerm_true] at ht
    cases ht

/-- Past the first nibble of a hex key, what is left is the rest of a hex key, empty after the terminator. -/
theorem HexKey.rest_full {key : List UInt8} {i : Fin 17} (h : HexKey key) (hi : childIndex key 0 = some i) :
    HexRest (decide (i = 16)) (key.drop 1) := by
  obtain ⟨b, hb, hbi⟩ := childIndex_eq_some hi
  cases key with
  | nil => cases hb
  | cons x rest =>
    simp only [List.getElem?_cons_zero, Option.some.injEq] at hb
    subst hb
    rcases hexKey_cons.mp h with ⟨rfl, rfl⟩ | ⟨hx, hr⟩
    · have hi16 : i = 16 := Fin.ext (by rw [← hbi]; rfl)
      simp [HexRest, hi16]
    · have hi16 : i ≠ 16 := by
        intro h16
        rw [h16] at hbi
        have := UInt8.lt_iff_toNat_lt.mp hx
        simp only [UInt8.toNat_ofNat] at this
        simp at hbi
        omega
      simpa [HexRest, hi16] using hr

theorem HexKey.shortKey {k : List UInt8} (h : HexKey k) : ShortKey k := ⟨h.ne_nil, h.keyOK, h.le⟩

/-- Nothing is left of a hex key only past the terminator. -/
theorem HexRest.nil {t : Bool} (h : HexRest t []) : t = true := by
  cases t with
  | true => rfl
  | false => exact absurd h id

/-- A key with something left is before the terminator. -/
theorem HexRest.ne_nil {t : Bool} {key : List UInt8} (h : HexRest t key) (hkey : key ≠ []) : HexKey key ∧ t = false := by
  cases t with
  | true => exact absurd h hkey
  | false => exact ⟨h, rfl⟩

/-- A key and what is left of it past some nibbles end the same way. -/
theorem hasTerm_drop {k : List UInt8} {n : Nat} (h : n < k.length) : hasTerm (k.drop n) = hasTerm k := by
  simp [hasTerm, List.getLast?_drop, Nat.not_le.mpr h]

theorem childIndex_drop (key : List UInt8) (pos : Nat) : childIndex (key.drop pos) 0 = childIndex key pos := by
  simp [childIndex]

/-- A hex key reads a value or its absence off a node of that shape: it never ends at a full node, nor meets a
`hashNode`. The induction is on the node, with the rest of the key. -/
theorem Node.Shaped.get_isSome : ∀ {n : Node} {t : Bool} {key : List UInt8}, n.Shaped t → HexRest t key →
    ∃ x, n.get key = some x
  | .empty, _, _, _, _ => ⟨none, rfl⟩
  | .value v, _, _, _, _ => ⟨some v, rfl⟩
  | .short k v _, false, key, h, hkey => by
    rw [Node.get_short]
    split
    · exact Node.Shaped.get_isSome (n := v) h.2.1 (HexKey.rest_short hkey ‹_›)
    · exact ⟨none, rfl⟩
  | .full c _, false, key, h, hkey => by
    have hb := HexKey.le hkey
    cases key with
    | nil => exact absurd hkey id
    | cons b rest =>
      have hi : childIndex (b :: rest) 0 = some ⟨b.toNat, hb b List.mem_cons_self⟩ := by
        simp [childIndex, hb b List.mem_cons_self]
      rw [Node.get_full_cons _ _ (hb b List.mem_cons_self)]
      exact Node.Shaped.get_isSome (h _) (HexKey.rest_full hkey hi)

section Get

variable {db : List UInt8 → Option RawNode} {cg : UInt16}

/-- On a node of the shape, `tryGet` finds what `get` reads and changes nothing, with one unit of fuel for each
nibble of the key left and one more: every node on the way takes at least one nibble, but the last. The induction is
on the fuel, one node down the key at each step. -/
theorem tryGet_of_get : ∀ fuel (n : Node) (t : Bool) key pos x, n.Shaped t → HexRest t (key.drop pos) →
    key.length - pos < fuel → n.get (key.drop pos) = some x → tryGet db cg fuel n key pos = .ok (x, n, false) := by
  intro fuel
  induction fuel with
  | zero => intro _ _ _ _ _ _ _ hf; omega
  | succ fuel ih =>
    intro n t key pos x hn hkey hf hx
    cases n with
    | empty => cases hx; rfl
    | value v => cases hx; rfl
    | hash h => cases t <;> exact absurd hn id
    | short k v f =>
      cases t with
      | true => exact absurd hn id
      | false =>
      rw [Node.get_short] at hx
      by_cases hk : (key.drop pos).take k.length = k
      · -- the key goes through the short node's key: the walk goes on past it
        rw [if_pos hk, List.drop_drop] at hx
        have hrest := HexKey.rest_short hkey hk
        rw [List.drop_drop] at hrest
        have hlen : k.length ≤ key.length - pos := by
          have := congrArg List.length hk
          rw [List.length_take, List.length_drop] at this
          omega
        have hk0 : 0 < k.length := List.length_pos_iff.mpr hn.1.1
        have hrec := ih v _ key (pos + k.length) x hn.2.1 hrest (by omega) hx
        have hcond : ¬ ((key.length : Int) - pos < k.length ∨ k ≠ (key.drop pos).take k.length) := by
          rw [not_or, not_not]
          exact ⟨by omega, hk.symm⟩
        simp only [tryGet, hcond, if_false, hrec]
        rfl
      · rw [if_neg hk] at hx
        cases hx
        have hcond : (key.length : Int) - pos < k.length ∨ k ≠ (key.drop pos).take k.length := .inr (Ne.symm hk)
        simp only [tryGet, hcond, if_true]
    | full c f =>
      cases t with
      | true => exact absurd hn id
      | false =>
      cases hd : key.drop pos with
      | nil =>
        rw [hd] at hkey
        exact absurd hkey id
      | cons b rest =>
      -- the walk goes on in the child of the key's next nibble
      rw [hd] at hkey hx
      have hb := hkey.le b List.mem_cons_self
      have hi : childIndex (b :: rest) 0 = some ⟨b.toNat, hb⟩ := by simp [childIndex, hb]
      have hci : childIndex key pos = some ⟨b.toNat, hb⟩ := by rw [← childIndex_drop, hd, hi]
      have hdrop : key.drop (pos + 1) = rest := by rw [← List.drop_drop, hd]; rfl
      have hlen : pos < key.length := by
        have := congrArg List.length hd
        rw [List.length_drop, List.length_cons] at this
        omega
      rw [Node.get_full_cons _ _ hb] at hx
      have hrec := ih (c _) _ key (pos + 1) x (hn _) (by rw [hdrop]; exact HexKey.rest_full hkey hi) (by omega)
        (by rw [hdrop]; exact hx)
      simp only [tryGet, hci, hrec]
      rfl

end Get

/-- A list is its part before position `i`, the element at `i`, and its part after. -/
theorem eq_take_append_cons_drop {α : Type} {l : List α} {i : Nat} {a : α} (h : l[i]? = some a) :
    l = l.take i ++ a :: l.drop (i + 1) := by
  obtain ⟨hi, rfl⟩ := List.getElem?_eq_some_iff.mp h
  rw [← List.drop_eq_getElem_cons hi, List.take_append_drop]

/-- Where the common prefix of two keys ends inside both, they differ. -/
theorem prefixLen_getElem_ne : ∀ a b : List UInt8, prefixLen a b < a.length → prefixLen a b < b.length →
    a[prefixLen a b]? ≠ b[prefixLen a b]?
  | x :: a, y :: b, ha, hb => by
    by_cases hxy : x = y
    · have hp : prefixLen (x :: a) (y :: b) = prefixLen a b + 1 := by rw [prefixLen, if_pos hxy]
      rw [hp] at ha hb ⊢
      simp only [List.getElem?_cons_succ]
      exact prefixLen_getElem_ne a b (by simpa using ha) (by simpa using hb)
    · have hp : prefixLen (x :: a) (y :: b) = 0 := by rw [prefixLen, if_neg hxy]
      rw [hp]
      simpa using hxy
  | [], _, ha, _ => by simp [prefixLen] at ha
  | _ :: _, [], _, hb => by simp [prefixLen] at hb

/-- Where two keys part, their nibbles are different children of the full node put there. -/
theorem childIndex_prefixLen_ne {key k : List UInt8} {ki kk : Fin 17} (hki : childIndex k (prefixLen key k) = some ki)
    (hkk : childIndex key (prefixLen key k) = some kk) : ki ≠ kk := by
  obtain ⟨a, ha, hai⟩ := childIndex_eq_some hki
  obtain ⟨b, hb, hbk⟩ := childIndex_eq_some hkk
  have hab : a ≠ b := fun hab => prefixLen_getElem_ne key k (childIndex_lt hkk) (childIndex_lt hki) (by rw [hb, ha, hab])
  exact fun h => hab (UInt8.toNat_inj.mp (by rw [hai, hbk, h]))

/-- A key that starts with a short node's key goes through the whole of it. -/
theorem prefixLen_of_take : ∀ {key k : List UInt8}, key.take k.length = k → prefixLen key k = k.length
  | key, [], _ => by cases key <;> rfl
  | [], _ :: _, h => by simp at h
  | x :: a, y :: b, h => by
    simp only [List.length_cons, List.take_succ_cons, List.cons.injEq] at h
    obtain ⟨rfl, h⟩ := h
    rw [prefixLen, if_pos rfl, prefixLen_of_take h, List.length_cons]

/-! ## Grafting a map under a key -/

/-- Two keys one after the other: a key starts with `a ++ b` when it starts with `a` and goes on with `b`. -/
theorem take_append_eq_iff {α : Type} (l a b : List α) :
    l.take (a ++ b).length = a ++ b ↔ l.take a.length = a ∧ (l.drop a.length).take b.length = b := by
  rw [List.length_append]
  constructor
  · intro h
    have ha : l.take a.length = a := by
      have := congrArg (List.take a.length) h
      rwa [List.take_take, Nat.min_eq_left (Nat.le_add_right _ _), List.take_left] at this
    refine ⟨ha, ?_⟩
    rw [List.take_add, ha] at h
    exact List.append_cancel_left h
  · rintro ⟨ha, hb⟩
    rw [List.take_add, ha, hb]

/-- The map of `n` with the map of `value` put under `key`: a key that starts with `key` reads `value` past it, and
any other key reads `n`. `insert` makes this map of a node, and `delete` makes it with the empty node under the key. -/
def Node.graft (n : Node) (key : List UInt8) (value : Node) (key' : List UInt8) : Option (Option (List UInt8)) :=
  if key'.take key.length = key then value.get (key'.drop key.length) else n.get key'

/-- A short node is its key grafted on the empty node. -/
theorem Node.get_short_eq_graft (k : List UInt8) (v : Node) (f : NodeFlag) (key' : List UInt8) :
    (Node.short k v f).get key' = Node.empty.graft k v key' := rfl

@[simp] theorem Node.graft_nil (n value : Node) (key' : List UInt8) : n.graft [] value key' = value.get key' := by
  simp [Node.graft]

/-- A graft reads the node it is made on only through its map. -/
theorem Node.graft_congr {n n' : Node} (h : ∀ y, n.get y = n'.get y) (key : List UInt8) (value : Node)
    (key' : List UInt8) : n.graft key value key' = n'.graft key value key' := by
  simp only [Node.graft, h]

/-- A short node over a child that holds a graft holds the graft behind its key. -/
theorem Node.get_short_graft {k key key' : List UInt8} {v nn value : Node} (f f' : NodeFlag)
    (h : key'.take k.length = k → nn.get (key'.drop k.length) = v.graft key value (key'.drop k.length)) :
    (Node.short k nn f').get key' = (Node.short k v f).graft (k ++ key) value key' := by
  rw [Node.get_short, Node.graft]
  simp only [take_append_eq_iff]
  by_cases hk : key'.take k.length = k
  · rw [if_pos hk, h hk, Node.graft, Node.get_short]
    simp only [hk, true_and, if_true, List.length_append, List.drop_drop]
  · simp only [hk, false_and, if_false, Node.get_short]

/-- A full node over a child that holds a graft holds the graft behind the child's nibble. -/
theorem Node.get_full_graft {c : Fin 17 → Node} {i : Fin 17} {x b : UInt8} {r rest : List UInt8} {nn value : Node}
    (f f' : NodeFlag) (hx : x.toNat = i.val) (hb : b.toNat < 17)
    (h : b = x → nn.get rest = (c i).graft r value rest) :
    (Node.full (Function.update c i nn) f').get (b :: rest) = (Node.full c f).graft (x :: r) value (b :: rest) := by
  rw [Node.get_full_cons _ _ hb, Node.graft, Node.get_full_cons _ _ hb]
  simp only [List.length_cons, List.take_succ_cons, List.cons.injEq, List.drop_succ_cons]
  by_cases hbx : b = x
  · subst hbx
    have hi : (⟨b.toNat, hb⟩ : Fin 17) = i := Fin.ext hx
    rw [hi, Function.update_self, h rfl, Node.graft]
    simp
  · have hi : (⟨b.toNat, hb⟩ : Fin 17) ≠ i := by
      intro he
      apply hbx
      have := congrArg Fin.val he
      simp only at this
      exact UInt8.toNat_inj.mp (by omega)
    rw [Function.update_of_ne hi]
    simp [hbx]

/-- The full node `insert` makes where a key leaves a short node's key reads the short node's map with the value
grafted in: the old rest of the short node under its nibble, the new value under the key's nibble. -/
theorem Node.get_branch {a b : UInt8} {ki kk : Fin 17} {k₂ key₂ y : List UInt8} {v value c1 c2 : Node} (f f' : NodeFlag)
    (ha : a.toNat = ki.val) (hb : b.toNat = kk.val) (hne : ki ≠ kk)
    (h1 : ∀ z, c1.get z = Node.empty.graft k₂ v z) (h2 : ∀ z, c2.get z = Node.empty.graft key₂ value z)
    (hy : ∀ x ∈ y, x.toNat < 17) (hy0 : y ≠ []) :
    (Node.full (Function.update (Function.update noChildren ki c1) kk c2) f').get y =
      (Node.short (a :: k₂) v f).graft (b :: key₂) value y := by
  obtain ⟨x, rest, rfl⟩ := List.exists_cons_of_ne_nil hy0
  have hx := hy x List.mem_cons_self
  have hab : a ≠ b := fun h => hne (Fin.ext (by rw [← ha, ← hb, h]))
  rw [Node.get_full_cons _ _ hx, Node.graft, Node.get_short]
  simp only [List.length_cons, List.take_succ_cons, List.cons.injEq, List.drop_succ_cons]
  by_cases hxb : x = b
  · -- the key's own nibble: the new value
    subst hxb
    have hi : (⟨x.toNat, hx⟩ : Fin 17) = kk := Fin.ext hb
    rw [hi, Function.update_self, h2, Node.graft]
    simp [Ne.symm hab]
  · by_cases hxa : x = a
    · -- the short node's nibble: the rest of the short node
      subst hxa
      have hi : (⟨x.toNat, hx⟩ : Fin 17) = ki := Fin.ext ha
      rw [hi, Function.update_of_ne hne, Function.update_self, h1, Node.graft]
      simp [hxb]
    · -- any other nibble: nothing
      have hki : (⟨x.toNat, hx⟩ : Fin 17) ≠ ki := fun h => hxa (UInt8.toNat_inj.mp (by rw [ha, ← h]))
      have hkk : (⟨x.toNat, hx⟩ : Fin 17) ≠ kk := fun h => hxb (UInt8.toNat_inj.mp (by rw [hb, ← h]))
      rw [Function.update_of_ne hkk, Function.update_of_ne hki]
      simp [hxb, hxa, noChildren]

/-! ## What `insert` does, case by case -/

section Insert

variable {db : List UInt8 → Option RawNode} {cg : UInt16} {fuel : Nat} {pfx key : List UInt8} {value : Node}
  {d : Bool} {nn : Node}

/-- With the key used up, `insert` puts the value in place, and reports no change only for the same value. -/
theorem insert_nil_cases {n : Node} (h : insert db cg fuel n pfx [] value = .ok (d, nn)) :
    nn = value ∧ (d = false → nn = n) := by
  refine ⟨insert_nil_key h, fun hd => ?_⟩
  cases fuel with
  | zero => cases h
  | succ fuel =>
    simp only [insert, List.length_nil, if_true] at h
    split at h
    · split at h
      · cases h
        rename_i w w'
        simp only [bne_eq_false_iff_eq] at hd
        rw [hd]
      · cases h
    · cases h
      cases hd

/-- `insert` into an empty node puts the value there, under a new short node over the key if there is one. -/
theorem insert_empty (h : insert db cg fuel .empty pfx key value = .ok (d, nn)) :
    d = true ∧ nn = if key = [] then value else .short key value (newFlag cg) := by
  cases fuel with
  | zero => cases h
  | succ fuel =>
    by_cases hk : key = []
    · subst hk
      simp only [insert, List.length_nil, if_true] at h
      cases h
      simp
    · have hlen : key.length ≠ 0 := fun h => hk (List.length_eq_zero_iff.mp h)
      simp only [insert, hlen, if_false] at h
      cases h
      simp [hk]

/-- `insert` at a short node whose whole key the key goes through inserts in its child past that key; the node
stays when nothing changed. -/
theorem insert_short_match {k : List UInt8} {v : Node} {f : NodeFlag} (hkey : key ≠ [])
    (hm : prefixLen key k = k.length) (h : insert db cg (fuel + 1) (.short k v f) pfx key value = .ok (d, nn)) :
    ∃ d' nn', insert db cg fuel v (pfx ++ key.take k.length) (key.drop k.length) value = .ok (d', nn') ∧
      (d' = false ∧ d = false ∧ nn = .short k v f ∨ d' = true ∧ d = true ∧ nn = .short k nn' (newFlag cg)) := by
  have hlen : key.length ≠ 0 := fun h => hkey (List.length_eq_zero_iff.mp h)
  simp only [insert, hlen, if_false, hm, if_true] at h
  obtain ⟨⟨d', nn'⟩, hrec, h⟩ := except_bind_eq_ok.mp h
  refine ⟨d', nn', hrec, ?_⟩
  cases d' with
  | false => cases h; exact .inl ⟨rfl, rfl, rfl⟩
  | true => cases h; exact .inr ⟨rfl, rfl, rfl⟩

/-- `insert` at a short node whose key the key leaves at `prefixLen key k` puts a full node there, under a short
node over the common part when there is one: the rest of the old short node goes under its next nibble, and the new
value under the key's. -/
theorem insert_short_branch {k : List UInt8} {v : Node} {f : NodeFlag} (hkey : key ≠ [])
    (hm : prefixLen key k ≠ k.length) (h : insert db cg (fuel + 1) (.short k v f) pfx key value = .ok (d, nn)) :
    ∃ ki kk c1 c2 d1 d2, childIndex k (prefixLen key k) = some ki ∧ childIndex key (prefixLen key k) = some kk ∧
      insert db cg fuel .empty (pfx ++ k.take (prefixLen key k + 1)) (k.drop (prefixLen key k + 1)) v = .ok (d1, c1) ∧
      insert db cg fuel .empty (pfx ++ key.take (prefixLen key k + 1)) (key.drop (prefixLen key k + 1)) value =
        .ok (d2, c2) ∧ d = true ∧
      (prefixLen key k = 0 ∧ nn = .full (Function.update (Function.update noChildren ki c1) kk c2) (newFlag cg) ∨
        prefixLen key k ≠ 0 ∧ nn = .short (key.take (prefixLen key k))
          (.full (Function.update (Function.update noChildren ki c1) kk c2) (newFlag cg)) (newFlag cg)) := by
  have hlen : key.length ≠ 0 := fun h => hkey (List.length_eq_zero_iff.mp h)
  simp only [insert, hlen, if_false, hm] at h
  obtain ⟨ki, hki⟩ : ∃ ki, childIndex k (prefixLen key k) = some ki := by
    cases hc : childIndex k (prefixLen key k) with
    | none => simp only [hc] at h; cases h
    | some i => exact ⟨i, rfl⟩
  simp only [hki] at h
  obtain ⟨⟨d1, c1⟩, h1, h⟩ := except_bind_eq_ok.mp h
  obtain ⟨kk, hkk⟩ : ∃ kk, childIndex key (prefixLen key k) = some kk := by
    cases hc : childIndex key (prefixLen key k) with
    | none => simp only [hc] at h; cases h
    | some i => exact ⟨i, rfl⟩
  simp only [hkk] at h
  obtain ⟨⟨d2, c2⟩, h2, h⟩ := except_bind_eq_ok.mp h
  refine ⟨ki, kk, c1, c2, d1, d2, hki, hkk, h1, h2, ?_⟩
  split at h
  · cases h; exact ⟨rfl, .inl ⟨‹_›, rfl⟩⟩
  · cases h; exact ⟨rfl, .inr ⟨‹_›, rfl⟩⟩

/-- `insert` at a full node inserts in the child of the key's first nibble; the node stays when nothing changed. -/
theorem insert_full_cases {c : Fin 17 → Node} {f : NodeFlag} (hkey : key ≠ [])
    (h : insert db cg (fuel + 1) (.full c f) pfx key value = .ok (d, nn)) :
    ∃ i d' nn', childIndex key 0 = some i ∧ insert db cg fuel (c i) (pfx ++ key.take 1) (key.drop 1) value = .ok (d', nn') ∧
      (d' = false ∧ d = false ∧ nn = .full c f ∨ d' = true ∧ d = true ∧ nn = .full (Function.update c i nn') (newFlag cg)) := by
  have hlen : key.length ≠ 0 := fun h => hkey (List.length_eq_zero_iff.mp h)
  simp only [insert, hlen, if_false] at h
  obtain ⟨i, hi⟩ : ∃ i, childIndex key 0 = some i := by
    cases hc : childIndex key 0 with
    | none => simp only [hc] at h; cases h
    | some i => exact ⟨i, rfl⟩
  simp only [hi] at h
  obtain ⟨⟨d', nn'⟩, hrec, h⟩ := except_bind_eq_ok.mp h
  refine ⟨i, d', nn', hi, hrec, ?_⟩
  cases d' with
  | false => cases h; exact .inl ⟨rfl, rfl, rfl⟩
  | true => cases h; exact .inr ⟨rfl, rfl, rfl⟩

/-- `insert` panics at a value with a key left. -/
theorem insert_value_ne {w : List UInt8} (hkey : key ≠ []) :
    insert db cg (fuel + 1) (.value w) pfx key value ≠ .ok (d, nn) := by
  have hlen : key.length ≠ 0 := fun h => hkey (List.length_eq_zero_iff.mp h)
  simp [insert, hlen]

/-- What `insert` makes of an empty node reads as the value grafted under the key. -/
theorem insert_empty_get (h : insert db cg fuel .empty pfx key value = .ok (d, nn)) (y : List UInt8) :
    nn.get y = Node.empty.graft key value y := by
  obtain ⟨-, rfl⟩ := insert_empty h
  split
  · rename_i hk
    subst hk
    simp
  · rfl

/-- `insert` grafts the value under the key: a key that starts with the inserted key reads the value past it, and
every other key reads what it read before. This holds for every key with nibbles below 17 that does not end inside the
inserted key, which every two hex keys satisfy. When `insert` reports no change, the node is the same. The induction
is on the fuel, along the key. -/
theorem insert_get : ∀ fuel (n : Node) pfx key value d nn, insert db cg fuel n pfx key value = .ok (d, nn) →
    n.NoHash → (d = false → nn = n) ∧ ∀ key', (∀ b ∈ key', b.toNat < 17) → (key.take key'.length = key' → key' = key) →
      nn.get key' = n.graft key value key' := by
  intro fuel
  induction fuel with
  | zero => intro _ _ _ _ _ _ h; cases h
  | succ fuel ih =>
    intro n pfx key value d nn h hn
    by_cases hkey : key = []
    · subst hkey
      obtain ⟨rfl, hd⟩ := insert_nil_cases h
      exact ⟨hd, fun key' _ _ => (Node.graft_nil _ _ _).symm⟩
    cases n with
    | empty =>
      obtain ⟨rfl, rfl⟩ := insert_empty h
      refine ⟨fun h => Bool.noConfusion h, fun key' _ _ => ?_⟩
      rw [if_neg hkey]
      rfl
    | value w => exact absurd h (insert_value_ne hkey)
    | hash hh => exact absurd hn id
    | full c f =>
      obtain ⟨i, d', nn', hi, hrec, hcase⟩ := insert_full_cases hkey h
      obtain ⟨hd', hget⟩ := ih (c i) _ _ value d' nn' hrec (hn i)
      -- in both cases the node reads as the full node over the new child
      have hnn : ∀ y, nn.get y = (Node.full (Function.update c i nn') f).get y := by
        rcases hcase with ⟨rfl, -, rfl⟩ | ⟨-, -, rfl⟩
        · rw [hd' rfl, Function.update_eq_self]
          exact fun _ => rfl
        · exact fun y => Node.get_full_flag _ _ _ y
      refine ⟨fun hd => ?_, fun key' hnib hpre => ?_⟩
      · rcases hcase with ⟨-, -, rfl⟩ | ⟨-, rfl, -⟩
        · rfl
        · cases hd
      obtain ⟨x, hx, hxi⟩ := childIndex_eq_some hi
      obtain ⟨r, rfl⟩ : ∃ r, key = x :: r := by
        cases key with
        | nil => cases hx
        | cons x' r =>
          simp only [List.getElem?_cons_zero, Option.some.injEq] at hx
          exact ⟨r, by rw [hx]⟩
      cases key' with
      | nil => exact absurd (hpre rfl) (List.cons_ne_nil x r).symm
      | cons b rest =>
        rw [hnn, Node.get_full_graft f f hxi (hnib b List.mem_cons_self)]
        rintro rfl
        simp only [List.drop_succ_cons, List.drop_zero] at hget
        refine hget rest (fun y hy => hnib y (List.mem_cons_of_mem _ hy)) fun hr => ?_
        have := hpre (by simp [hr])
        simpa using this
    | short k v f =>
      by_cases hm : prefixLen key k = k.length
      · -- the key goes through the whole short key: the value is grafted in the child
        obtain ⟨d', nn', hrec, hcase⟩ := insert_short_match hkey hm h
        obtain ⟨hd', hget⟩ := ih v _ _ value d' nn' hrec hn
        have hnn : ∀ y, nn.get y = (Node.short k nn' f).get y := by
          rcases hcase with ⟨rfl, -, rfl⟩ | ⟨-, -, rfl⟩
          · rw [hd' rfl]
            exact fun _ => rfl
          · exact fun _ => rfl
        refine ⟨fun hd => ?_, fun key' hnib hpre => ?_⟩
        · rcases hcase with ⟨-, -, rfl⟩ | ⟨-, rfl, -⟩
          · rfl
          · cases hd
        have hk := take_of_prefixLen hm
        have hsplit := List.take_append_drop k.length key
        rw [hk] at hsplit
        rw [hnn, ← hsplit, Node.get_short_graft f f]
        intro hk'
        refine hget _ (fun y hy => hnib y (List.mem_of_mem_drop hy)) fun hpre' => ?_
        -- a key that ends inside the rest of the inserted key ends inside the inserted key
        have hsplit' := List.take_append_drop k.length key'
        rw [hk'] at hsplit'
        have htake : key.take key'.length = key' := by
          rw [← hsplit', take_append_eq_iff]
          exact ⟨hk, hpre'⟩
        rw [hpre htake]
      · -- the key leaves the short key: a new full node where they part
        obtain ⟨ki, kk, c1, c2, d1, d2, hki, hkk, h1, h2, rfl, hcase⟩ := insert_short_branch hkey hm h
        refine ⟨fun h => Bool.noConfusion h, fun key' hnib hpre => ?_⟩
        obtain ⟨a, ha, hai⟩ := childIndex_eq_some hki
        obtain ⟨b, hb, hbk⟩ := childIndex_eq_some hkk
        have hmkey := childIndex_lt hkk
        have hne := childIndex_prefixLen_ne hki hkk
        set m := prefixLen key k
        have hk : k = key.take m ++ a :: k.drop (m + 1) := by
          have hp : key.take m = k.take m := prefixLen_take key k
          rw [hp]
          exact eq_take_append_cons_drop ha
        have hkey' := eq_take_append_cons_drop hb
        have hlen : (key.take m).length = m := by rw [List.length_take]; omega
        set p := key.take m
        set B := Node.full (Function.update (Function.update noChildren ki c1) kk c2) (newFlag cg)
        -- the new node reads as a short node over the common part, and the old one as two short nodes
        have hnn : ∀ y, nn.get y = (Node.short p B f).get y := by
          rcases hcase with ⟨h0, rfl⟩ | ⟨-, rfl⟩
          · intro y
            have hp0 : p = [] := by rw [← List.length_eq_zero_iff, hlen, h0]
            simp [Node.get_short, hp0]
          · exact fun _ => rfl
        have hold : ∀ y, (Node.short k v f).get y = (Node.short p (.short (a :: k.drop (m + 1)) v f) f).get y := by
          intro y
          conv_lhs => rw [hk]
          exact Node.get_short_short _ _ _ _ _ _ _
        rw [hnn, Node.graft_congr hold, hkey', Node.get_short_graft f f]
        intro hpk
        refine Node.get_branch f _ hai hbk hne (insert_empty_get h1) (insert_empty_get h2)
          (fun y hy => hnib y (List.mem_of_mem_drop hy)) fun hnil => ?_
        -- a key that ends at the new full node ends inside the inserted key
        have hle : key'.length ≤ p.length := by simpa using hnil
        have hkp : key' = p := by rw [← hpk, List.take_of_length_le hle]
        have heq := hpre (by rw [hkp, hlen])
        rw [← heq, hkp, hlen] at hmkey
        exact lt_irrefl _ hmkey

/-- What `insert` puts under the nibble `a` at position `m` of a key `k`, for the rest of the key past it, has the
shape of the child under that nibble: the value itself past the terminator, a short node over the rest before it. -/
theorem insert_empty_shaped {k : List UInt8} {m : Nat} {a : UInt8} {i : Fin 17} {c : Node} (hk : KeyOK k)
    (hnib : ∀ b ∈ k, b.toNat < 17) (ha : k[m]? = some a) (hai : a.toNat = i.val) (hv : value.Shaped (hasTerm k))
    (hvf : value.FullOrValue) (h : insert db cg fuel .empty pfx (k.drop (m + 1)) value = .ok (d, c)) :
    c.Shaped (decide (i = 16)) := by
  have hi16 : i = 16 ↔ a = 16 := by
    rw [Fin.ext_iff, ← hai, ← UInt8.toNat_inj]
    rfl
  have hsplit := eq_take_append_cons_drop ha
  obtain ⟨-, rfl⟩ := insert_empty h
  split
  · -- the nibble is the last of the key: the child is the value
    rename_i hnil
    rw [hnil] at hsplit
    have hterm : hasTerm k = decide (i = 16) := by
      rw [hsplit]
      by_cases ha16 : a = 16
      · simp [hasTerm, ha16, hi16.mpr ha16]
      · simp [hasTerm, ha16, mt hi16.mp ha16]
    rwa [← hterm]
  · -- a nibble before the last is not the terminator
    rename_i hne
    have hm : m + 1 < k.length := by
      by_contra hle
      exact hne (List.drop_eq_nil_of_le (by omega))
    have ha16 : a ≠ 16 := by
      intro h16
      apply hk
      rw [List.dropLast_eq_take]
      apply List.mem_of_getElem? (i := m)
      rw [List.getElem?_take, if_pos (by omega), ha, h16]
    rw [decide_eq_false (mt hi16.mp ha16)]
    refine ⟨⟨hne, hk.drop _, fun b hb => hnib b (List.mem_of_mem_drop hb)⟩, ?_, hvf⟩
    rwa [hasTerm_drop hm]

/-- What `insert` makes of a full node or a value is a full node or a value. -/
theorem insert_fullOrValue {w : List UInt8} {n : Node} (hn : n.FullOrValue)
    (h : insert db cg fuel n pfx key (.value w) = .ok (d, nn)) : nn.FullOrValue := by
  cases fuel with
  | zero => cases h
  | succ fuel =>
    by_cases hnil : key = []
    · subst hnil
      rw [(insert_nil_cases h).1]
      trivial
    cases n with
    | full c f =>
      obtain ⟨i, d', nn', -, -, ⟨-, -, rfl⟩ | ⟨-, -, rfl⟩⟩ := insert_full_cases hnil h <;> trivial
    | value v => exact absurd h (insert_value_ne hnil)
    | _ => exact absurd hn id

/-- `insert` of a value under a hex key keeps the shape of a trie built in memory. The induction is on the fuel,
along the key. -/
theorem insert_shaped (w : List UInt8) : ∀ fuel (n : Node) t pfx key d nn,
    insert db cg fuel n pfx key (.value w) = .ok (d, nn) → n.Shaped t → HexRest t key → nn.Shaped t := by
  intro fuel
  induction fuel with
  | zero => intro _ _ _ _ _ _ h; cases h
  | succ fuel ih =>
    intro n t pfx key d nn h hn hkey
    by_cases hnil : key = []
    · subst hnil
      obtain ⟨rfl, -⟩ := insert_nil_cases h
      rw [hkey.nil]
      rfl
    obtain ⟨hkey, rfl⟩ := hkey.ne_nil hnil
    cases n with
    | empty =>
      obtain ⟨-, rfl⟩ := insert_empty h
      rw [if_neg hnil]
      exact ⟨hkey.shortKey, by rw [hkey.hasTerm_true]; rfl, trivial⟩
    | value v => exact absurd h (insert_value_ne hnil)
    | hash hh => exact absurd hn id
    | full c f =>
      obtain ⟨i, d', nn', hi, hrec, ⟨-, -, rfl⟩ | ⟨-, -, rfl⟩⟩ := insert_full_cases hnil h
      · exact hn
      · have hc := ih (c i) _ _ _ d' nn' hrec (hn i) (HexKey.rest_full hkey hi)
        intro j
        exact update_apply_of (fun hj => hj ▸ hc) (fun _ => hn j)
    | short k v f =>
      by_cases hm : prefixLen key k = k.length
      · obtain ⟨d', nn', hrec, ⟨-, -, rfl⟩ | ⟨-, -, rfl⟩⟩ := insert_short_match hnil hm h
        · exact hn
        · exact ⟨hn.1, ih v _ _ _ d' nn' hrec hn.2.1 (HexKey.rest_short hkey (take_of_prefixLen hm)),
            insert_fullOrValue hn.2.2 hrec⟩
      · obtain ⟨ki, kk, c1, c2, d1, d2, hki, hkk, h1, h2, -, hcase⟩ := insert_short_branch hnil hm h
        obtain ⟨a, ha, hai⟩ := childIndex_eq_some hki
        obtain ⟨b, hb, hbk⟩ := childIndex_eq_some hkk
        -- the old rest goes under its nibble, the value under the key's, and every other child is empty
        have hc1 := insert_empty_shaped hn.1.2.1 hn.1.2.2 ha hai hn.2.1 hn.2.2 h1
        have hc2 := insert_empty_shaped hkey.keyOK hkey.le hb hbk (by rw [hkey.hasTerm_true]; rfl)
          (show (Node.value w).FullOrValue from trivial) h2
        have hB : (Node.full (Function.update (Function.update noChildren ki c1) kk c2) (newFlag cg)).Shaped false :=
          fun j => update_apply_of (fun hj => hj ▸ hc2)
            (fun _ => update_apply_of (fun hj => hj ▸ hc1) (fun _ => trivial))
        rcases hcase with ⟨-, rfl⟩ | ⟨h0, rfl⟩
        · exact hB
        · -- the common part is a proper prefix of the hex key, so it has no terminator
          have hlt := childIndex_lt hkk
          obtain ⟨hpk, hpt⟩ := keyOK_of_not_mem (hkey.keyOK.not_mem_take hlt)
          refine ⟨⟨?_, hpk, fun x hx => hkey.le x (List.mem_of_mem_take hx)⟩, by rwa [hpt], trivial⟩
          rw [← List.length_pos_iff, List.length_take]
          omega

end Insert

/-! ## What `delete` does, case by case -/

/-- The key of a short node over the short node it merges with. -/
theorem ShortKey.append {k ck : List UInt8} (hk : ShortKey k) (ht : hasTerm k = false) (hck : ShortKey ck) :
    ShortKey (k ++ ck) ∧ hasTerm (k ++ ck) = hasTerm ck := by
  obtain ⟨hkeyok, hterm⟩ := keyOK_append (hk.2.1.not_mem ht) hck.2.1
  refine ⟨⟨by simp [hk.1], hkeyok, fun b hb => ?_⟩, hterm⟩
  rcases List.mem_append.mp hb with hb | hb
  · exact hk.2.2 b hb
  · exact hck.2.2 b hb

/-- The key of the short node over the one child left of a full node: its nibble, the terminator for child 16. -/
theorem shortKey_single (j : Fin 17) :
    ShortKey [UInt8.ofNat j.val] ∧ hasTerm [UInt8.ofNat j.val] = decide (j = 16) := by
  have hj := j.isLt
  refine ⟨⟨List.cons_ne_nil _ _, by simp [KeyOK], fun b hb => ?_⟩, ?_⟩
  · rw [List.mem_singleton.mp hb, UInt8.toNat_ofNat', Nat.mod_eq_of_lt (by omega)]
    exact hj
  · by_cases h16 : j = 16
    · subst h16
      rfl
    · rw [decide_eq_false h16]
      simp only [hasTerm, List.getLast?_singleton, beq_eq_false_iff_ne, ne_eq, Option.some.injEq]
      exact fun h => h16 (ofNat_nibble_eq_terminator h)

/-- A node with no `hashNode` is resolved to itself. -/
theorem resolve_of_noHash {db : List UInt8 → Option RawNode} {cg : UInt16} {n : Node} (h : n.NoHash)
    (pfx : List UInt8) : resolve db cg n pfx = .ok n := by
  cases n with
  | hash hh => exact absurd h id
  | _ => rfl

/-- When the position loop of `delete` ends at a child, that child is not empty and every other child is. -/
theorem remainingPos_only {c : Fin 17 → Node} {j : Fin 17} (h : remainingPos c = j.val) :
    c j ≠ .empty ∧ ∀ i, i ≠ j → c i = .empty := by
  have hpos : 0 ≤ remainingPos c := by rw [h]; omega
  unfold remainingPos at h hpos
  have hcases := FoldM.foldl_only (fun i => c i ≠ .empty) (fun i => (i.val : Int)) _ ?_ ?_ (fun _ => by omega) _ _ hpos
  · rcases hcases with ⟨heq, -⟩ | ⟨-, x, -, hx, heq, huniq⟩
    · rw [heq] at h
      omega
    · have hxj : x = j := Fin.ext (by rw [heq] at h; exact_mod_cast h)
      subst hxj
      refine ⟨hx, fun i hi => ?_⟩
      by_contra hne
      exact hi (huniq i (List.mem_finRange _) hne)
  · -- the loop keeps the position at an empty child
    intro pos x hx
    rw [not_not] at hx
    simp [hx]
  · -- and records the first child that is not empty
    intro pos x hx
    cases hcx : c x with
    | empty => exact absurd hcx hx
    | _ => simp

/-- The position loop of `delete` finds the only child that is not empty. -/
theorem remainingPos_of_only {c : Fin 17 → Node} {j : Fin 17} (hj : c j ≠ .empty) (hothers : ∀ i, c i ≠ .empty → i = j) :
    remainingPos c = j.val := by
  unfold remainingPos
  refine FoldM.foldl_of_only (fun i => c i ≠ .empty) (fun i => (i.val : Int)) _ ?_ ?_ hj hothers _
    (List.nodup_finRange 17) (List.mem_finRange j)
  · intro pos x hx
    rw [not_not] at hx
    simp [hx]
  · intro pos x hx
    cases hcx : c x with
    | empty => exact absurd hcx hx
    | _ => simp

/-- A full node with one child left, as a short node over the child's nibble, reads as the full node for every key
that goes on past it. -/
theorem Node.get_single {c : Fin 17 → Node} {j : Fin 17} (hj : ∀ i, i ≠ j → c i = .empty) (f f' : NodeFlag)
    {key' : List UInt8} (hne : key' ≠ []) (hnib : ∀ b ∈ key', b.toNat < 17) :
    (Node.short [UInt8.ofNat j.val] (c j) f').get key' = (Node.full c f).get key' := by
  obtain ⟨b, rest, rfl⟩ := List.exists_cons_of_ne_nil hne
  have hb := hnib b List.mem_cons_self
  rw [Node.get_short, Node.get_full_cons _ _ hb]
  simp only [List.length_singleton, List.take_succ_cons, List.take_zero, List.cons.injEq, and_true,
    List.drop_succ_cons, List.drop_zero]
  by_cases hbj : b = UInt8.ofNat j.val
  · have hi : (⟨b.toNat, hb⟩ : Fin 17) = j := by
      ext
      simp only [hbj, UInt8.toNat_ofNat']
      have := j.isLt
      omega
    rw [if_pos hbj, hi]
  · have hi : (⟨b.toNat, hb⟩ : Fin 17) ≠ j := by
      intro he
      apply hbj
      rw [← he]
      exact (UInt8.ofNat_toNat).symm
    rw [if_neg hbj, hj _ hi]
    rfl

/-- The node `delete` puts in place of a full node whose children have become `c`, with what the position loop found:
a full node again when the loop found no one child left, or a short node over the only child left, merged with that
child when it is a short node. -/
inductive Collapsed (db : List UInt8 → Option RawNode) (cg : UInt16) (pfx : List UInt8) (c : Fin 17 → Node) :
    Node → Prop
  | full : (∀ j : Fin 17, remainingPos c ≠ j.val) → Collapsed db cg pfx c (.full c (newFlag cg))
  | single (j : Fin 17) : (∀ i, i ≠ j → c i = .empty) → c j ≠ .empty →
      (j ≠ 16 → ∀ ck cv fl, resolve db cg (c j) pfx ≠ .ok (.short ck cv fl)) →
      Collapsed db cg pfx c (.short [UInt8.ofNat j.val] (c j) (newFlag cg))
  | merge (j : Fin 17) (ck : List UInt8) (cv : Node) (fl : NodeFlag) : (∀ i, i ≠ j → c i = .empty) → j ≠ 16 →
      resolve db cg (c j) pfx = .ok (.short ck cv fl) →
      Collapsed db cg pfx c (.short (UInt8.ofNat j.val :: ck) cv (newFlag cg))

section Delete

variable {db : List UInt8 → Option RawNode} {cg : UInt16} {fuel : Nat} {pfx key : List UInt8} {d : Bool} {nn : Node}

/-- The node a full node collapses to reads as the full node, for every key that goes on past it. -/
theorem Collapsed.get {c : Fin 17 → Node} (hc : Collapsed db cg pfx c nn) (hn : ∀ i, (c i).NoHash) (f : NodeFlag)
    {key' : List UInt8} (hne : key' ≠ []) (hnib : ∀ b ∈ key', b.toNat < 17) :
    nn.get key' = (Node.full c f).get key' := by
  cases hc with
  | full _ => exact Node.get_full_flag _ _ _ _
  | single j hj _ _ => exact Node.get_single hj f _ hne hnib
  | merge j ck cv fl hj _ hres =>
    -- the child is in memory, so it is the short node merged in
    rw [resolve_of_noHash (hn j)] at hres
    have hcj : c j = .short ck cv fl := Except.ok.inj hres
    rw [← Node.get_single hj f (newFlag cg) hne hnib, hcj]
    exact Node.get_short_short [UInt8.ofNat j.val] ck cv _ _ _ _

/-- The node a full node of the shape collapses to has the shape. -/
theorem Collapsed.shaped {c : Fin 17 → Node} (hc : Collapsed db cg pfx c nn) (hs : ∀ j, (c j).Shaped (decide (j = 16))) :
    nn.Shaped false := by
  cases hc with
  | full _ => exact hs
  | single j _ hne hns =>
    obtain ⟨hk, ht⟩ := shortKey_single j
    refine ⟨hk, by rw [ht]; exact hs j, ?_⟩
    -- the child left is not empty, and a short child would have been merged in
    have hsj := hs j
    by_cases h16 : j = 16
    · subst h16
      cases hcj : c 16 with
      | value w => trivial
      | empty => exact absurd hcj hne
      | _ => rw [hcj] at hsj; exact absurd hsj id
    · rw [decide_eq_false h16] at hsj
      cases hcj : c j with
      | full => trivial
      | short ck cv fl => exact absurd (by rw [resolve_of_noHash hsj.noHash, hcj]) (hns h16 ck cv fl)
      | empty => exact absurd hcj hne
      | value w => rw [hcj] at hsj; cases hsj
      | hash hh => rw [hcj] at hsj; exact absurd hsj id
  | merge j ck cv fl _ h16 hres =>
    rw [resolve_of_noHash (hs j).noHash] at hres
    have hsj := hs j
    rw [Except.ok.inj hres, decide_eq_false h16] at hsj
    obtain ⟨hk, ht⟩ := shortKey_single j
    rw [decide_eq_false h16] at ht
    obtain ⟨hk', ht'⟩ := hk.append ht hsj.1
    rw [List.singleton_append] at hk' ht'
    exact ⟨hk', by rw [ht']; exact hsj.2.1, hsj.2.2⟩

theorem delete_empty : delete db cg (fuel + 1) .empty pfx key = .ok (false, .empty) := rfl

theorem delete_value {w : List UInt8} : delete db cg (fuel + 1) (.value w) pfx key = .ok (true, .empty) := rfl

/-- What `delete` does at a short node: nothing when the key leaves the short key; it empties the node when the key
ends with it; otherwise it deletes in the child past the short key, and a short child it gets back is merged in. -/
theorem delete_short_cases {k : List UInt8} {v : Node} {f : NodeFlag}
    (h : delete db cg (fuel + 1) (.short k v f) pfx key = .ok (d, nn)) :
    (prefixLen key k < k.length ∧ d = false ∧ nn = .short k v f) ∨
    (prefixLen key k = k.length ∧ prefixLen key k = key.length ∧ d = true ∧ nn = .empty) ∨
    (prefixLen key k = k.length ∧ prefixLen key k ≠ key.length ∧ ∃ d' child,
      delete db cg fuel v (pfx ++ key.take k.length) (key.drop k.length) = .ok (d', child) ∧
      (d' = false ∧ d = false ∧ nn = .short k v f ∨ d' = true ∧ d = true ∧
        ((∀ ck cv fl, child ≠ .short ck cv fl) ∧ nn = .short k child (newFlag cg) ∨
          ∃ ck cv fl, child = .short ck cv fl ∧ nn = .short (k ++ ck) cv (newFlag cg)))) := by
  simp only [delete] at h
  split at h
  · cases h
    exact .inl ⟨‹_›, rfl, rfl⟩
  · rename_i hlt
    have hm : prefixLen key k = k.length := le_antisymm (prefixLen_le_right _ _) (Nat.not_lt.mp hlt)
    split at h
    · cases h
      exact .inr (.inl ⟨hm, ‹_›, rfl, rfl⟩)
    · rename_i hne
      obtain ⟨⟨d', child⟩, hrec, h⟩ := except_bind_eq_ok.mp h
      refine .inr (.inr ⟨hm, hne, d', child, hrec, ?_⟩)
      cases d' with
      | false =>
        cases h
        exact .inl ⟨rfl, rfl, rfl⟩
      | true =>
        simp only [Bool.not_true, Bool.false_eq_true, if_false] at h
        split at h
        · cases h
          exact .inr ⟨rfl, rfl, .inr ⟨_, _, _, rfl, rfl⟩⟩
        · rename_i hnot
          cases h
          exact .inr ⟨rfl, rfl, .inl ⟨fun ck cv fl hsh => hnot ck cv fl hsh, rfl⟩⟩

/-- What `delete` does at a full node: it deletes in the child of the key's first nibble; when that changed nothing
the node stays, and otherwise it collapses as the position loop finds. -/
theorem delete_full_collapse {c : Fin 17 → Node} {f : NodeFlag}
    (h : delete db cg (fuel + 1) (.full c f) pfx key = .ok (d, nn)) :
    ∃ i d' nn', childIndex key 0 = some i ∧ delete db cg fuel (c i) (pfx ++ key.take 1) (key.drop 1) = .ok (d', nn') ∧
      (d' = false ∧ d = false ∧ nn = .full c f ∨
        d' = true ∧ d = true ∧ Collapsed db cg pfx (Function.update c i nn') nn) := by
  obtain ⟨i, hi⟩ : ∃ i, childIndex key 0 = some i := by
    cases hc : childIndex key 0 with
    | none => simp only [delete, hc] at h; cases h
    | some i => exact ⟨i, rfl⟩
  simp only [delete, hi] at h
  obtain ⟨⟨d', nn'⟩, hrec, h⟩ := except_bind_eq_ok.mp h
  refine ⟨i, d', nn', hi, hrec, ?_⟩
  cases d' with
  | false =>
    cases h
    exact .inl ⟨rfl, rfl, rfl⟩
  | true =>
    simp only [Bool.not_true, Bool.false_eq_true, if_false] at h
    split at h
    · -- the loop found one child left: every other child is empty
      rename_i hpos
      obtain ⟨hleft, hothers⟩ := remainingPos_only (c := Function.update c i nn')
        (j := ⟨(remainingPos (Function.update c i nn')).toNat, by omega⟩) (by simp only; omega)
      split at h
      · rename_i hne
        obtain ⟨cnode, hres, h⟩ := except_bind_eq_ok.mp h
        split at h
        · cases h
          refine .inr ⟨rfl, rfl, .merge _ _ _ _ hothers (fun heq => hne ?_) hres⟩
          have hval := congrArg Fin.val heq
          simp only at hval
          omega
        · -- the child left is not a short node: it stays under a short node over its nibble
          rename_i hnot
          cases h
          exact .inr ⟨rfl, rfl, .single _ hothers hleft fun _ ck cv fl hsh =>
            hnot ck cv fl (Except.ok.inj (hres.symm.trans hsh))⟩
      · -- the child left is the terminator's
        rename_i h16
        cases h
        refine .inr ⟨rfl, rfl, .single _ hothers hleft fun hne => absurd (Fin.ext ?_) hne⟩
        simp only [ne_eq, not_not] at h16
        simp only [h16]
        rfl
    · -- no one child left: the full node stays
      rename_i hpos
      cases h
      refine .inr ⟨rfl, rfl, .full fun j hj => hpos ?_⟩
      have := j.isLt
      omega

/-- What `delete` makes of a full node is a full node or a short node. -/
theorem delete_full_result {c : Fin 17 → Node} {f : NodeFlag} (h : delete db cg fuel (.full c f) pfx key = .ok (d, nn)) :
    (∃ c' f', nn = .full c' f') ∨ ∃ k' v' f', nn = .short k' v' f' := by
  cases fuel with
  | zero => cases h
  | succ fuel =>
    obtain ⟨i, d', nn', -, -, ⟨-, -, rfl⟩ | ⟨-, -, hcol⟩⟩ := delete_full_collapse h
    · exact .inl ⟨_, _, rfl⟩
    · cases hcol with
      | full _ => exact .inl ⟨_, _, rfl⟩
      | single j _ _ _ => exact .inr ⟨_, _, _, rfl⟩
      | merge j ck cv fl _ _ _ => exact .inr ⟨_, _, _, rfl⟩

/-- `delete` under a hex key keeps the shape of a trie built in memory. The induction is on the fuel, along the key. -/
theorem delete_shaped : ∀ fuel (n : Node) t pfx key d nn, delete db cg fuel n pfx key = .ok (d, nn) →
    n.Shaped t → HexRest t key → nn.Shaped t := by
  intro fuel
  induction fuel with
  | zero => intro _ _ _ _ _ _ h; cases h
  | succ fuel ih =>
    intro n t pfx key d nn h hn hkey
    cases n with
    | empty => rw [delete_empty] at h; cases h; trivial
    | value w => rw [delete_value] at h; cases h; trivial
    | hash hh => cases t <;> exact absurd hn id
    | short k v f =>
      cases t with
      | true => exact absurd hn id
      | false =>
      rcases delete_short_cases h with ⟨-, -, rfl⟩ | ⟨-, -, -, rfl⟩ |
        ⟨hm, hne, d', child, hrec, ⟨-, -, rfl⟩ | ⟨-, -, hnn⟩⟩
      · exact hn
      · trivial
      · exact hn
      · have hrest := HexKey.rest_short hkey (take_of_prefixLen hm)
        have hc := ih v _ _ _ d' child hrec hn.2.1 hrest
        -- the key goes on past the short key, so the short key has no terminator
        have hterm : hasTerm k = false := by
          cases ht : hasTerm k with
          | false => rfl
          | true =>
            rw [ht] at hrest
            have hle : key.length ≤ k.length := List.drop_eq_nil_iff.mp hrest
            exact absurd (le_antisymm (prefixLen_le_left _ _) (hm ▸ hle)) hne
        rw [hterm] at hc
        rcases hnn with ⟨hnot, rfl⟩ | ⟨ck, cv, fl, rfl, rfl⟩
        · -- the child is a full node, and what `delete` makes of it is full or short, here full
          refine ⟨hn.1, by rwa [hterm], ?_⟩
          have hv := hn.2.1
          rw [hterm] at hv
          cases v with
          | full c' f' =>
            rcases delete_full_result hrec with ⟨c'', f'', rfl⟩ | ⟨k', v', f'', rfl⟩
            · trivial
            · exact absurd rfl (hnot k' v' f'')
          | value w => cases hv
          | _ => exact absurd hn.2.2 id
        · -- a short child merges into a key that is still a short key
          obtain ⟨hk', ht'⟩ := hn.1.append hterm hc.1
          exact ⟨hk', by rw [ht']; exact hc.2.1, hc.2.2⟩
    | full c f =>
      cases t with
      | true => exact absurd hn id
      | false =>
      obtain ⟨i, d', nn', hi, hrec, ⟨-, -, rfl⟩ | ⟨-, -, hcol⟩⟩ := delete_full_collapse h
      · exact hn
      · have hc := ih (c i) _ _ _ d' nn' hrec (hn i) (HexKey.rest_full hkey hi)
        exact hcol.shaped fun j => update_apply_of (fun hj => hj ▸ hc) (fun _ => hn j)

/-- `delete` empties the key: a key that starts with the deleted key reads nothing, and every other key reads what it
read before, for every key of the trie. When `delete` reports no change, the node is the same. The induction is on the
fuel, along the key. -/
theorem delete_get : ∀ fuel (n : Node) t pfx key d nn, delete db cg fuel n pfx key = .ok (d, nn) →
    n.Shaped t → HexRest t key → (d = false → nn = n) ∧ ∀ key', HexRest t key' → nn.get key' = n.graft key .empty key' := by
  intro fuel
  induction fuel with
  | zero => intro _ _ _ _ _ _ h; cases h
  | succ fuel ih =>
    intro n t pfx key d nn h hn hkey
    cases n with
    | empty =>
      rw [delete_empty] at h
      cases h
      refine ⟨fun _ => rfl, fun key' _ => ?_⟩
      unfold Node.graft
      split <;> rfl
    | value w =>
      rw [delete_value] at h
      cases h
      cases t with
      | false => cases hn
      | true =>
        refine ⟨fun h => Bool.noConfusion h, fun key' hk' => ?_⟩
        rw [show key = [] from hkey, Node.graft_nil]
    | hash hh => cases t <;> exact absurd hn id
    | short k v f =>
      cases t with
      | true => exact absurd hn id
      | false =>
      rcases delete_short_cases h with ⟨hlt, -, rfl⟩ | ⟨hm, hmkey, rfl, rfl⟩ | ⟨hm, -, d', child, hrec, hcase⟩
      · -- the key leaves the short key: it was not there
        refine ⟨fun _ => rfl, fun key' hk' => ?_⟩
        unfold Node.graft
        split
        · rename_i htake
          rw [← hkey.eq_of_take hk' htake, Node.get_short, if_neg fun hk => absurd (prefixLen_of_take hk) hlt.ne]
          rfl
        · rfl
      · -- the key ends with the short key: the node goes
        have hk : key = k := by
          rw [← take_of_prefixLen hm, List.take_of_length_le (by omega)]
        subst hk
        refine ⟨fun h => Bool.noConfusion h, fun key' _ => ?_⟩
        unfold Node.graft
        split
        · rfl
        · rw [Node.get_short, if_neg ‹_›]
          rfl
      · -- the key goes on past the short key: delete in the child
        have hk := take_of_prefixLen hm
        obtain ⟨hd', hget⟩ := ih v _ _ _ d' child hrec hn.2.1 (HexKey.rest_short hkey hk)
        have hnn : ∀ y, nn.get y = (Node.short k child f).get y := by
          rcases hcase with ⟨rfl, -, rfl⟩ | ⟨-, -, ⟨-, rfl⟩ | ⟨ck, cv, fl, rfl, rfl⟩⟩
          · rw [hd' rfl]
            exact fun _ => rfl
          · exact fun _ => rfl
          · exact fun y => Node.get_short_short _ _ _ _ _ _ _
        refine ⟨fun hd => ?_, fun key' hk' => ?_⟩
        · rcases hcase with ⟨-, -, rfl⟩ | ⟨-, rfl, -⟩
          · rfl
          · cases hd
        have hsplit := List.take_append_drop k.length key
        rw [hk] at hsplit
        rw [hnn, ← hsplit, Node.get_short_graft f f]
        exact fun hk'' => hget _ (HexKey.rest_short hk' hk'')
    | full c f =>
      cases t with
      | true => exact absurd hn id
      | false =>
      obtain ⟨i, d', nn', hi, hrec, hcase⟩ := delete_full_collapse h
      obtain ⟨hd', hget⟩ := ih (c i) _ _ _ d' nn' hrec (hn i) (HexKey.rest_full hkey hi)
      -- the new node reads as the full node over the new child, for every hex key
      have hnn : ∀ key', HexKey key' → nn.get key' = (Node.full (Function.update c i nn') f).get key' := by
        intro key' hk'
        rcases hcase with ⟨rfl, -, rfl⟩ | ⟨-, -, hcol⟩
        · rw [hd' rfl, Function.update_eq_self]
        · have hs := delete_shaped _ _ _ _ _ _ _ hrec (hn i) (HexKey.rest_full hkey hi)
          exact hcol.get (update_child hs.noHash fun j => (hn j).noHash) f hk'.ne_nil hk'.le
      refine ⟨fun hd => ?_, fun key' hk' => ?_⟩
      · rcases hcase with ⟨-, -, rfl⟩ | ⟨-, rfl, -⟩
        · rfl
        · cases hd
      replace hk' : HexKey key' := hk'
      obtain ⟨x, hx, hxi⟩ := childIndex_eq_some hi
      obtain ⟨r, rfl⟩ : ∃ r, key = x :: r := by
        cases key with
        | nil => cases hx
        | cons x' r =>
          simp only [List.getElem?_cons_zero, Option.some.injEq] at hx
          exact ⟨r, by rw [hx]⟩
      obtain ⟨b, rest, rfl⟩ := List.exists_cons_of_ne_nil hk'.ne_nil
      rw [hnn _ hk', Node.get_full_graft f f hxi (hk'.le b List.mem_cons_self)]
      rintro rfl
      simp only [List.drop_succ_cons, List.drop_zero] at hget
      -- the key goes on into the same child
      have hi' : childIndex (b :: rest) 0 = some i := by simpa [childIndex] using hi
      simpa using hget rest (HexKey.rest_full hk' hi')

end Delete

/-! ## Hashing without a commit changes only flags -/

/-- `m` is `n` with other flags: the same nodes, keys and values. -/
def Node.Reflagged : Node → Node → Prop
  | .full c _, .full c' _ => ∀ i, (c i).Reflagged (c' i)
  | .short k v _, .short k' v' _ => k = k' ∧ v.Reflagged v'
  | .empty, .empty => True
  | .value v, .value v' => v = v'
  | .hash h, .hash h' => h = h'
  | _, _ => False

theorem Node.Reflagged.refl : ∀ n : Node, n.Reflagged n
  | .full c _ => fun i => Node.Reflagged.refl (c i)
  | .short _ v _ => ⟨rfl, Node.Reflagged.refl v⟩
  | .empty => trivial
  | .value _ => rfl
  | .hash _ => rfl

/-- Flags do not change the map of a node. -/
theorem Node.Reflagged.get : ∀ {n m : Node}, n.Reflagged m → ∀ key, m.get key = n.get key
  | .full c _, .full c' _, h, [] => rfl
  | .full c _, .full c' _, h, b :: rest => by
    by_cases hb : b.toNat < 17
    · rw [Node.get_full_cons _ _ hb, Node.get_full_cons _ _ hb]
      exact Node.Reflagged.get (h _) rest
    · simp [Node.get, hb]
  | .short k v _, .short k' v' _, ⟨hk, hv⟩, key => by
    subst hk
    rw [Node.get_short, Node.get_short]
    split
    · exact Node.Reflagged.get hv _
    · rfl
  | .empty, .empty, _, _ => rfl
  | .value v, .value v', h, _ => by rw [show v' = v from h.symm]
  | .hash _, .hash _, _, _ => rfl

theorem Node.Reflagged.fullOrValue {n m : Node} (h : n.Reflagged m) (hn : n.FullOrValue) : m.FullOrValue := by
  cases n <;> cases m <;> first | exact absurd hn id | exact absurd h id | trivial

/-- Flags do not change the shape of a node. -/
theorem Node.Reflagged.shaped : ∀ {n m : Node} {t : Bool}, n.Reflagged m → n.Shaped t → m.Shaped t
  | .full c _, .full c' _, false, h, hn => fun i => Node.Reflagged.shaped (h i) (hn i)
  | .short k v _, .short k' v' _, false, ⟨hk, hv⟩, hn => by
    subst hk
    exact ⟨hn.1, Node.Reflagged.shaped hv hn.2.1, Node.Reflagged.fullOrValue hv hn.2.2⟩
  | .empty, .empty, _, _, _ => trivial
  | .value _, .value _, _, _, hn => hn

section Hash

variable {encode : Node → List UInt8} {keccak : List UInt8 → List UInt8} {hs : Hasher}

/-- Out of commit mode, a node with a cached hash is kept as it is. -/
theorem fromCache_false {n : Node} {f : NodeFlag} {hashed cached : Node} (h : hs.fromCache false n f = some (hashed, cached)) :
    cached = n := by
  simp only [Hasher.fromCache] at h
  split at h
  · cases h
  · simp only [Bool.not_false, if_true, Option.some.injEq, Prod.mk.injEq] at h
    exact h.2.symm

/-- Out of commit mode, `hash` keeps in memory the node it was given with only its flags changed: the hashes it
cached. The induction is on the node, with the loop over a full node's children as in `hash_cached`. -/
theorem hash_reflagged : ∀ (n : Node) force hashed cached, hs.hash encode keccak false n force = some (hashed, cached) →
    n.Reflagged cached := by
  intro n
  induction n with
  | empty => intro _ _ _ h; cases h
  | hash hh => intro _ _ _ h; cases h; exact Node.Reflagged.refl _
  | value w => intro _ _ _ h; cases h; exact Node.Reflagged.refl _
  | short k v f ih =>
    intro force hashed cached h
    simp only [Hasher.hash] at h
    split at h
    · rename_i r hr
      cases h
      rw [fromCache_false hr]
      exact Node.Reflagged.refl _
    · obtain ⟨ck, -, h⟩ := Option.bind_eq_some_iff.mp h
      -- a value is kept as it is, and any other node hashed
      split at h
      · cases h
        exact ⟨rfl, Node.Reflagged.refl _⟩
      · obtain ⟨⟨cv1, cv2⟩, hv, h⟩ := Option.bind_eq_some_iff.mp h
        cases h
        exact ⟨rfl, ih _ _ _ hv⟩
  | full c f ih =>
    intro force hashed cached h
    simp only [Hasher.hash] at h
    split at h
    · rename_i r hr
      cases h
      rw [fromCache_false hr]
      exact Node.Reflagged.refl _
    · obtain ⟨⟨coll, cc⟩, hloop, h⟩ := Option.bind_eq_some_iff.mp h
      cases h
      -- each child the loop visits is hashed, and the others are kept
      have hch := FoldM.foldlM_update_spec Fin.castSucc (fun j => c j = .empty) (fun j x => (c j).Reflagged x) _
        (fun acc i acc' hstep => by
          split at hstep
          · rename_i he
            cases hstep
            exact .inl ⟨he, rfl⟩
          · obtain ⟨⟨hc, ccj⟩, hh, hstep⟩ := Option.bind_eq_some_iff.mp hstep
            cases hstep
            exact .inr ⟨ccj, ih _ _ _ _ hh, rfl⟩) _ (c, c) (coll, cc) hloop
      intro j
      rcases hch j with ⟨heq, -⟩ | hj
      · rw [heq]
        exact Node.Reflagged.refl _
      · exact hj

end Hash

end Etherzero.Trie
