import Mathlib
import Etherzero.Lemmas.TrieTotal

/-!
# A trie in minimal form is fixed by its map

`insert` and `delete` keep a trie in minimal form. `Node.Shaped` says that a short node holds a full node or a value,
never another short node; `Node.Branchy` adds that every full node has two children or more, which `delete` keeps by
reducing a full node with one child left to a short node over it (`delete_branchy`), and `insert` by branching out
only where two keys part (`insert_branchy`).

Two tries of that form that read the same under every hex key are the same up to flags (`Node.reflagged_of_get`): a
short node over a full node has as its key the longest common start of the keys under it, and a short node over a
value the one key under it.
-/

namespace Etherzero.Trie

/-- Every full node has two children or more. -/
def Node.Branchy : Node → Prop
  | .full c _ => (∃ i j, i ≠ j ∧ c i ≠ .empty ∧ c j ≠ .empty) ∧ ∀ i, (c i).Branchy
  | .short _ v _ => v.Branchy
  | _ => True

theorem Node.FullOrValue.ne_empty {n : Node} (h : n.FullOrValue) : n ≠ .empty := by
  rintro rfl
  exact h

/-! ## Keys under a node -/

theorem toNat_ofNat_nibble (i : Fin 17) : (UInt8.ofNat i.val).toNat = i.val := by
  have := i.isLt
  rw [UInt8.toNat_ofNat', Nat.mod_eq_of_lt (by omega)]

theorem ofNat_nibble_inj {i j : Fin 17} (h : UInt8.ofNat i.val = UInt8.ofNat j.val) : i = j := by
  have := congrArg UInt8.toNat h
  rw [toNat_ofNat_nibble, toNat_ofNat_nibble] at this
  exact Fin.ext this

/-- A nibble other than the terminator is below 16. -/
theorem nibble_lt_of_ne {x : UInt8} (h17 : x.toNat < 17) (h16 : x ≠ 16) : x < 16 := by
  rw [UInt8.lt_iff_toNat_lt]
  have : x.toNat ≠ 16 := fun h => h16 (UInt8.toNat_inj.mp (by simpa using h))
  simp only [UInt8.toNat_ofNat]
  omega

/-- Nibbles below 16 in front of a hex key make a hex key. -/
theorem hexKey_append_of_lt {a b : List UInt8} (ha : ∀ x ∈ a, x < 16) (hb : HexKey b) : HexKey (a ++ b) := by
  induction a with
  | nil => exact hb
  | cons x a ih =>
    exact hexKey_cons.mpr (.inr ⟨ha x List.mem_cons_self, ih fun y hy => ha y (List.mem_cons_of_mem x hy)⟩)

/-- A short key, and past it what is left of a hex key there, make a hex key. -/
theorem ShortKey.hexKey_append {k rest : List UInt8} (hk : ShortKey k) (hr : HexRest (hasTerm k) rest) :
    HexKey (k ++ rest) := by
  cases ht : hasTerm k with
  | false =>
    rw [ht] at hr
    have h16 := hk.2.1.not_mem ht
    exact hexKey_append_of_lt (fun x hx => nibble_lt_of_ne (hk.2.2 x hx) fun h => h16 (h ▸ hx)) hr
  | true =>
    rw [ht] at hr
    -- nothing is left past the terminator, which ends the short key
    have hnil : rest = [] := hr
    subst hnil
    have hlast : (16 : UInt8) ∈ k.getLast? := by simpa [hasTerm] using ht
    rw [List.append_nil, ← List.dropLast_append_getLast? 16 hlast]
    refine hexKey_append_of_lt (fun x hx => nibble_lt_of_ne (hk.2.2 x (List.mem_of_mem_dropLast hx)) ?_)
      (hexKey_cons.mpr (.inl ⟨rfl, rfl⟩))
    exact fun h => hk.2.1 (h ▸ hx)

/-- A nibble, and past it what is left of a hex key under its child, make a hex key. -/
theorem hexKey_nibble_cons {i : Fin 17} {rest : List UInt8} (h : HexRest (decide (i = 16)) rest) :
    HexKey (UInt8.ofNat i.val :: rest) := by
  by_cases h16 : i = 16
  · subst h16
    rw [decide_eq_true rfl] at h
    have hnil : rest = [] := h
    subst hnil
    exact hexKey_cons.mpr (.inl ⟨rfl, rfl⟩)
  · rw [decide_eq_false h16] at h
    refine hexKey_cons.mpr (.inr ⟨nibble_lt_of_ne ?_ fun he => h16 (ofNat_nibble_eq_terminator he), h⟩)
    rw [toNat_ofNat_nibble]
    exact i.isLt

/-- A full node reads under a nibble what its child under that nibble reads. -/
theorem Node.get_full_nibble (c : Fin 17 → Node) (f : NodeFlag) (i : Fin 17) (rest : List UInt8) :
    (Node.full c f).get (UInt8.ofNat i.val :: rest) = (c i).get rest := by
  have hb : (UInt8.ofNat i.val).toNat < 17 := by rw [toNat_ofNat_nibble]; exact i.isLt
  rw [Node.get_full_cons _ _ hb]
  rw [show (⟨(UInt8.ofNat i.val).toNat, hb⟩ : Fin 17) = i from Fin.ext (toNat_ofNat_nibble i)]

/-- A node of the shape that is not empty holds a value under some key. The induction is on the node. -/
theorem Node.exists_value {n : Node} : ∀ {t : Bool}, n.Shaped t → n.Branchy → n ≠ .empty →
    ∃ key w, HexRest t key ∧ n.get key = some (some w) := by
  induction n with
  | empty => intro _ _ _ hne; exact absurd rfl hne
  | value w =>
    intro t hn _ _
    cases t with
    | true => exact ⟨[], w, rfl, rfl⟩
    | false => cases hn
  | hash hh => intro t hn; cases t <;> exact absurd hn id
  | short k v f ih =>
    intro t hn hb _
    cases t with
    | true => exact absurd hn id
    | false =>
      obtain ⟨key, w, hkey, hget⟩ := ih hn.2.1 hb hn.2.2.ne_empty
      exact ⟨k ++ key, w, hn.1.hexKey_append hkey, by rw [Node.get_short_append]; exact hget⟩
  | full c f ih =>
    intro t hn hb _
    cases t with
    | true => exact absurd hn id
    | false =>
      obtain ⟨i, -, -, hi, -⟩ := hb.1
      obtain ⟨key, w, hkey, hget⟩ := ih i (hn i) (hb.2 i) hi
      exact ⟨UInt8.ofNat i.val :: key, w, hexKey_nibble_cons hkey, by rw [Node.get_full_nibble]; exact hget⟩

/-- A node of the shape that reads nothing under every key is empty. -/
theorem Node.eq_empty_of_get {n : Node} {t : Bool} (hn : n.Shaped t) (hb : n.Branchy)
    (h : ∀ key, HexRest t key → n.get key = some none) : n = .empty := by
  by_contra hne
  obtain ⟨key, w, hkey, hget⟩ := Node.exists_value hn hb hne
  rw [h key hkey] at hget
  cases hget

/-- A short node holds values only under keys that go through its key. -/
theorem Node.get_short_prefix {k key w : List UInt8} {v : Node} {f : NodeFlag}
    (h : (Node.short k v f).get key = some (some w)) : key.take k.length = k := by
  rw [Node.get_short] at h
  by_contra hne
  rw [if_neg hne] at h
  cases h

/-- A key that starts two keys which part right after `p` is no longer than `p`, and starts it. -/
theorem take_of_two {p r₁ r₂ k : List UInt8} {a b : UInt8} (hab : a ≠ b)
    (h₁ : (p ++ a :: r₁).take k.length = k) (h₂ : (p ++ b :: r₂).take k.length = k) :
    k.length ≤ p.length ∧ p.take k.length = k := by
  have hle : k.length ≤ p.length := by
    by_contra hge
    have hlt := Nat.lt_of_not_le hge
    -- past `p` the key would have both nibbles at once
    have e₁ : k[p.length]? = some a := by
      rw [← h₁, List.getElem?_take, if_pos hlt, List.getElem?_append_right (le_refl _), Nat.sub_self]
      rfl
    have e₂ : k[p.length]? = some b := by
      rw [← h₂, List.getElem?_take, if_pos hlt, List.getElem?_append_right (le_refl _), Nat.sub_self]
      rfl
    exact hab (Option.some.inj (e₁.symm.trans e₂))
  exact ⟨hle, by rw [← List.take_append_of_le_length hle]; exact h₁⟩

/-- A full node of the minimal form holds values under two keys that differ in their first nibble. -/
theorem Node.full_two_keys {c : Fin 17 → Node} {f : NodeFlag} (hn : (Node.full c f).Shaped false)
    (hb : (Node.full c f).Branchy) :
    ∃ a b r₁ r₂ w₁ w₂, a ≠ b ∧ HexKey (a :: r₁) ∧ HexKey (b :: r₂) ∧
      (Node.full c f).get (a :: r₁) = some (some w₁) ∧ (Node.full c f).get (b :: r₂) = some (some w₂) := by
  obtain ⟨i, j, hij, hi, hj⟩ := hb.1
  obtain ⟨r₁, w₁, hr₁, hg₁⟩ := Node.exists_value (hn i) (hb.2 i) hi
  obtain ⟨r₂, w₂, hr₂, hg₂⟩ := Node.exists_value (hn j) (hb.2 j) hj
  refine ⟨_, _, r₁, r₂, w₁, w₂, fun he => hij (ofNat_nibble_inj he), hexKey_nibble_cons hr₁, hexKey_nibble_cons hr₂,
    ?_, ?_⟩
  · rw [Node.get_full_nibble]
    exact hg₁
  · rw [Node.get_full_nibble]
    exact hg₂

/-- The keys under a short node of the minimal form: over a value, its own key only; over a full node, two keys that
part right after its key. -/
theorem Node.short_keys {k : List UInt8} {v : Node} {f : NodeFlag} (hn : (Node.short k v f).Shaped false)
    (hb : v.Branchy) :
    (HexKey k ∧ ∃ w, (Node.short k v f).get k = some (some w) ∧
      ∀ key w', HexKey key → (Node.short k v f).get key = some (some w') → key = k) ∨
    (∃ a b r₁ r₂ w₁ w₂, a ≠ b ∧ HexKey (k ++ a :: r₁) ∧ HexKey (k ++ b :: r₂) ∧
      (Node.short k v f).get (k ++ a :: r₁) = some (some w₁) ∧ (Node.short k v f).get (k ++ b :: r₂) = some (some w₂)) := by
  obtain ⟨hk, hv, hfv⟩ := hn
  cases v with
  | value w =>
    -- a value sits past the terminator, which ends the short key
    have ht : hasTerm k = true := hv
    have hnil : HexRest (hasTerm k) [] := by rw [ht]; exact rfl
    refine .inl ⟨by simpa using hk.hexKey_append hnil, w, by simpa using Node.get_short_append k (.value w) f [],
      fun key w' hkey hget => ?_⟩
    exact hkey.keyOK.eq_of_take (Node.get_short_prefix hget) ht
  | full c f' =>
    have ht : hasTerm k = false := by
      cases hterm : hasTerm k with
      | false => rfl
      | true => rw [hterm] at hv; exact absurd hv id
    rw [ht] at hv
    obtain ⟨a, b, r₁, r₂, w₁, w₂, hab, hk₁, hk₂, hg₁, hg₂⟩ := Node.full_two_keys hv hb
    refine .inr ⟨a, b, r₁, r₂, w₁, w₂, hab, hk.hexKey_append (by rw [ht]; exact hk₁),
      hk.hexKey_append (by rw [ht]; exact hk₂), ?_, ?_⟩
    · rw [Node.get_short_append]
      exact hg₁
    · rw [Node.get_short_append]
      exact hg₂
  | _ => exact absurd hfv id

/-- A short node and a full node of the minimal form never read the same: the short key would start two keys that
differ in their first nibble. -/
theorem Node.short_ne_full {k : List UInt8} {v : Node} {f f' : NodeFlag} {c : Fin 17 → Node}
    (hk : ShortKey k) (hc : (Node.full c f').Shaped false) (hb : (Node.full c f').Branchy)
    (h : ∀ key, HexKey key → (Node.short k v f).get key = (Node.full c f').get key) : False := by
  obtain ⟨a, b, r₁, r₂, w₁, w₂, hab, hk₁, hk₂, hg₁, hg₂⟩ := Node.full_two_keys hc hb
  have h₁ := Node.get_short_prefix ((h _ hk₁).trans hg₁)
  have h₂ := Node.get_short_prefix ((h _ hk₂).trans hg₂)
  have hle := (take_of_two (p := []) hab h₁ h₂).1
  exact hk.1 (List.length_eq_zero_iff.mp (Nat.le_zero.mp hle))

/-- Two short nodes of the minimal form that read the same have the same key. -/
theorem Node.short_key_eq {k k' : List UInt8} {v v' : Node} {f f' : NodeFlag}
    (hn : (Node.short k v f).Shaped false) (hm : (Node.short k' v' f').Shaped false) (hbn : v.Branchy)
    (hbm : v'.Branchy) (h : ∀ key, HexKey key → (Node.short k v f).get key = (Node.short k' v' f').get key) :
    k = k' := by
  rcases Node.short_keys hn hbn with ⟨hkey, w, hw, hone⟩ | ⟨a, b, r₁, r₂, w₁, w₂, hab, hk₁, hk₂, hg₁, hg₂⟩ <;>
    rcases Node.short_keys hm hbm with ⟨-, w', -, hone'⟩ | ⟨a', b', r₁', r₂', w₁', w₂', hab', hk₁', hk₂', hg₁', hg₂'⟩
  · -- one key each, read by both
    exact hone' k w hkey ((h k hkey).symm.trans hw)
  · -- the two keys of the second node would both be the one key of the first
    have e₁ := hone _ _ hk₁' ((h _ hk₁').trans hg₁')
    have e₂ := hone _ _ hk₂' ((h _ hk₂').trans hg₂')
    exact absurd (List.cons.inj (List.append_cancel_left (e₁.trans e₂.symm))).1 hab'
  · have e₁ := hone' _ _ hk₁ ((h _ hk₁).symm.trans hg₁)
    have e₂ := hone' _ _ hk₂ ((h _ hk₂).symm.trans hg₂)
    exact absurd (List.cons.inj (List.append_cancel_left (e₁.trans e₂.symm))).1 hab
  · -- both keys start the two keys of the other
    obtain ⟨hle, htake⟩ := take_of_two hab (Node.get_short_prefix ((h _ hk₁).symm.trans hg₁))
      (Node.get_short_prefix ((h _ hk₂).symm.trans hg₂))
    obtain ⟨hle', htake'⟩ := take_of_two hab' (Node.get_short_prefix ((h _ hk₁').trans hg₁'))
      (Node.get_short_prefix ((h _ hk₂').trans hg₂'))
    rw [← htake, le_antisymm hle hle', List.take_length]

/-! ## The map fixes the trie -/

/-- Flags leave a node empty or not. -/
theorem Node.Reflagged.eq_empty {n m : Node} (h : n.Reflagged m) : n = .empty ↔ m = .empty := by
  cases n <;> cases m <;> first | exact absurd h id | simp

/-- Two nodes of the minimal form that read the same under every key are the same up to flags. The induction is on
the first node: what the two nodes read fixes the constructor of the second and the key of a short node, and then
what each child reads. -/
theorem Node.reflagged_of_get {n : Node} : ∀ {m : Node} {t : Bool}, n.Shaped t → m.Shaped t → n.Branchy →
    m.Branchy → (∀ key, HexRest t key → n.get key = m.get key) → n.Reflagged m := by
  induction n with
  | empty =>
    intro m t _ hm _ hbm h
    rw [Node.eq_empty_of_get hm hbm fun key hkey => (h key hkey).symm]
    trivial
  | value w =>
    intro m t hn hm _ hbm h
    cases t with
    | false => cases hn
    | true =>
      cases m with
      | value w' => exact Option.some.inj (Option.some.inj (h [] rfl))
      | empty => cases h [] rfl
      | _ => exact absurd hm id
  | hash hh => intro m t hn; cases t <;> exact absurd hn id
  | short k v f ih =>
    intro m t hn hm hbn hbm h
    cases t with
    | true => exact absurd hn id
    | false =>
      cases m with
      | empty => exact absurd (Node.eq_empty_of_get hn hbn h) fun he => Node.noConfusion he
      | full c' f' => exact (Node.short_ne_full hn.1 hm hbm h).elim
      | short k' v' f' =>
        obtain rfl := Node.short_key_eq hn hm hbn hbm h
        refine ⟨rfl, ih hn.2.1 hm.2.1 hbn hbm fun rest hrest => ?_⟩
        -- the children read what the short nodes read past the key
        rw [← Node.get_short_append k v f, ← Node.get_short_append k v' f']
        exact h _ (hn.1.hexKey_append hrest)
      | value w => exact absurd hm Bool.false_ne_true
      | hash hh => exact absurd hm id
  | full c f ih =>
    intro m t hn hm hbn hbm h
    cases t with
    | true => exact absurd hn id
    | false =>
      cases m with
      | empty => exact absurd (Node.eq_empty_of_get hn hbn h) fun he => Node.noConfusion he
      | short k' v' f' => exact (Node.short_ne_full hm.1 hn hbn fun key hkey => (h key hkey).symm).elim
      | full c' f' =>
        intro i
        refine ih i (hn i) (hm i) (hbn.2 i) (hbm.2 i) fun rest hrest => ?_
        rw [← Node.get_full_nibble c f, ← Node.get_full_nibble c' f']
        exact h _ (hexKey_nibble_cons hrest)
      | value w => exact absurd hm Bool.false_ne_true
      | hash hh => exact absurd hm id

/-! ## `insert`, `delete` and `hash` keep the minimal form -/

/-- Flags do not change how many children a full node has. -/
theorem Node.Reflagged.branchy {n : Node} : ∀ {m : Node}, n.Reflagged m → n.Branchy → m.Branchy := by
  induction n with
  | full c f ih =>
    intro m h hb
    cases m with
    | full c' f' =>
      obtain ⟨i, j, hij, hi, hj⟩ := hb.1
      exact ⟨⟨i, j, hij, fun he => hi ((h i).eq_empty.mpr he), fun he => hj ((h j).eq_empty.mpr he)⟩,
        fun k => ih k (h k) (hb.2 k)⟩
    | _ => exact absurd h id
  | short k v f ih =>
    intro m h hb
    cases m with
    | short k' v' f' => exact @ih v' h.2 hb
    | _ => exact absurd h id
  | empty => intro m _ _; cases m <;> trivial
  | value w => intro m _ _; cases m <;> trivial
  | hash hh => intro m _ _; cases m <;> trivial

section Insert

variable {db : List UInt8 → Option RawNode} {cg : UInt16} {pfx : List UInt8} {d : Bool} {nn : Node}

/-- `insert` of a value never leaves an empty node. -/
theorem insert_ne_empty {fuel : Nat} {n : Node} {key w : List UInt8} (hn : n.NoHash)
    (h : insert db cg fuel n pfx key (.value w) = .ok (d, nn)) : nn ≠ .empty := by
  cases fuel with
  | zero => cases h
  | succ fuel =>
    by_cases hnil : key = []
    · subst hnil
      rw [(insert_nil_cases h).1]
      exact fun he => Node.noConfusion he
    cases n with
    | empty =>
      obtain ⟨-, rfl⟩ := insert_empty h
      rw [if_neg hnil]
      exact fun he => Node.noConfusion he
    | value v => exact absurd h (insert_value_ne hnil)
    | hash hh => exact absurd hn id
    | full c f =>
      obtain ⟨i, d', nn', -, -, ⟨-, -, rfl⟩ | ⟨-, -, rfl⟩⟩ := insert_full_cases hnil h <;>
        exact fun he => Node.noConfusion he
    | short k v f =>
      by_cases hm : prefixLen key k = k.length
      · obtain ⟨d', nn', -, ⟨-, -, rfl⟩ | ⟨-, -, rfl⟩⟩ := insert_short_match hnil hm h <;>
          exact fun he => Node.noConfusion he
      · obtain ⟨ki, kk, c1, c2, d1, d2, -, -, -, -, -, ⟨-, rfl⟩ | ⟨-, rfl⟩⟩ := insert_short_branch hnil hm h <;>
          exact fun he => Node.noConfusion he

/-- What `insert` puts in an empty node for a node that is not empty is not empty, with the full nodes of the node. -/
theorem insert_empty_branchy {key : List UInt8} {fuel : Nat} {value c : Node} (hv : value ≠ .empty)
    (hb : value.Branchy) (h : insert db cg fuel .empty pfx key value = .ok (d, c)) : c ≠ .empty ∧ c.Branchy := by
  obtain ⟨-, rfl⟩ := insert_empty h
  split
  · exact ⟨hv, hb⟩
  · exact ⟨fun he => Node.noConfusion he, hb⟩

/-- `insert` of a value under a hex key keeps every full node with two children or more: it adds a child, or puts a
full node with two children where two keys part. The induction is on the fuel, along the key. -/
theorem insert_branchy (w : List UInt8) : ∀ fuel (n : Node) t pfx key d nn,
    insert db cg fuel n pfx key (.value w) = .ok (d, nn) → n.Shaped t → HexRest t key → n.Branchy → nn.Branchy := by
  intro fuel
  induction fuel with
  | zero => intro _ _ _ _ _ _ h; cases h
  | succ fuel ih =>
    intro n t pfx key d nn h hn hkey hb
    by_cases hnil : key = []
    · subst hnil
      rw [(insert_nil_cases h).1]
      trivial
    obtain ⟨hkey, rfl⟩ := hkey.ne_nil hnil
    cases n with
    | empty =>
      obtain ⟨-, rfl⟩ := insert_empty h
      rw [if_neg hnil]
      trivial
    | value v => exact absurd h (insert_value_ne hnil)
    | hash hh => exact absurd hn id
    | full c f =>
      obtain ⟨i, d', nn', hi, hrec, ⟨-, -, rfl⟩ | ⟨-, -, rfl⟩⟩ := insert_full_cases hnil h
      · exact hb
      · -- the child inserted into is not empty, so the two children stay
        have hne := insert_ne_empty (hn i).noHash hrec
        have hc := ih (c i) _ _ _ d' nn' hrec (hn i) (HexKey.rest_full hkey hi) (hb.2 i)
        obtain ⟨j₁, j₂, hj, h₁, h₂⟩ := hb.1
        exact ⟨⟨j₁, j₂, hj, update_apply_of (P := fun x => x ≠ .empty) (fun _ => hne) fun _ => h₁,
          update_apply_of (P := fun x => x ≠ .empty) (fun _ => hne) fun _ => h₂⟩, update_child hc hb.2⟩
    | short k v f =>
      by_cases hm : prefixLen key k = k.length
      · obtain ⟨d', nn', hrec, ⟨-, -, rfl⟩ | ⟨-, -, rfl⟩⟩ := insert_short_match hnil hm h
        · exact hb
        · exact ih v _ _ _ d' nn' hrec hn.2.1 (HexKey.rest_short hkey (take_of_prefixLen hm)) hb
      · obtain ⟨ki, kk, c1, c2, d1, d2, hki, hkk, h1, h2, -, hcase⟩ := insert_short_branch hnil hm h
        -- the old rest and the value go under two different nibbles, and neither is empty
        have hc1 := insert_empty_branchy hn.2.2.ne_empty hb h1
        have hc2 := insert_empty_branchy (fun he => Node.noConfusion he) (show (Node.value w).Branchy from trivial) h2
        have hne := childIndex_prefixLen_ne hki hkk
        have hB : (Node.full (Function.update (Function.update noChildren ki c1) kk c2) (newFlag cg)).Branchy := by
          refine ⟨⟨ki, kk, hne, ?_, ?_⟩, update_child hc2.2 (update_child hc1.2 fun _ => trivial)⟩
          · rw [Function.update_of_ne hne, Function.update_self]
            exact hc1.1
          · rw [Function.update_self]
            exact hc2.1
        rcases hcase with ⟨-, rfl⟩ | ⟨-, rfl⟩
        · exact hB
        · exact hB

end Insert

section Delete

variable {db : List UInt8 → Option RawNode} {cg : UInt16} {pfx : List UInt8} {d : Bool} {nn : Node}

/-- The node a full node with two children or more collapses to, after one child changed, keeps every full node with
two children or more: one left full has two children, since the position loop found no one child. -/
theorem Collapsed.branchy {c : Fin 17 → Node} {i : Fin 17} {x : Node}
    (hc : Collapsed db cg pfx (Function.update c i x) nn) (hn : ∀ j, (Function.update c i x j).NoHash)
    (hall : ∀ j, (Function.update c i x j).Branchy) (htwo : ∃ j₁ j₂, j₁ ≠ j₂ ∧ c j₁ ≠ .empty ∧ c j₂ ≠ .empty) :
    nn.Branchy := by
  cases hc with
  | full hpos =>
    refine ⟨?_, hall⟩
    -- one of the two children is not the one that changed, so it is still there
    obtain ⟨y, hy, hyc⟩ : ∃ y, y ≠ i ∧ c y ≠ .empty := by
      obtain ⟨j₁, j₂, hj, h₁, h₂⟩ := htwo
      by_cases hj₁ : j₁ = i
      · exact ⟨j₂, fun he => hj (hj₁.trans he.symm), h₂⟩
      · exact ⟨j₁, hj₁, h₁⟩
    have hy' : Function.update c i x y ≠ .empty := by rwa [Function.update_of_ne hy]
    by_contra hnot
    refine hpos y (remainingPos_of_only hy' fun z hz => ?_)
    by_contra hzy
    exact hnot ⟨z, y, hzy, hz, hy'⟩
  | single j _ _ _ => exact hall j
  | merge j ck cv fl _ _ hres =>
    rw [resolve_of_noHash (hn j)] at hres
    have hb := hall j
    rw [Except.ok.inj hres] at hb
    exact hb

/-- `delete` under a hex key keeps every full node with two children or more: a full node left with one child is
reduced to a short node over it. The induction is on the fuel, along the key. -/
theorem delete_branchy : ∀ fuel (n : Node) t pfx key d nn, delete db cg fuel n pfx key = .ok (d, nn) →
    n.Shaped t → HexRest t key → n.Branchy → nn.Branchy := by
  intro fuel
  induction fuel with
  | zero => intro _ _ _ _ _ _ h; cases h
  | succ fuel ih =>
    intro n t pfx key d nn h hn hkey hb
    cases n with
    | empty => rw [delete_empty] at h; cases h; trivial
    | value w => rw [delete_value] at h; cases h; trivial
    | hash hh => cases t <;> exact absurd hn id
    | short k v f =>
      cases t with
      | true => exact absurd hn id
      | false =>
      rcases delete_short_cases h with ⟨-, -, rfl⟩ | ⟨-, -, -, rfl⟩ |
        ⟨hm, -, d', child, hrec, ⟨-, -, rfl⟩ | ⟨-, -, ⟨-, rfl⟩ | ⟨ck, cv, fl, rfl, rfl⟩⟩⟩
      · exact hb
      · trivial
      · exact hb
      · exact ih v _ _ _ d' child hrec hn.2.1 (HexKey.rest_short hkey (take_of_prefixLen hm)) hb
      · -- the short child merged in brings its own child
        exact ih v _ _ _ d' (.short ck cv fl) hrec hn.2.1 (HexKey.rest_short hkey (take_of_prefixLen hm)) hb
    | full c f =>
      cases t with
      | true => exact absurd hn id
      | false =>
      obtain ⟨i, d', nn', hi, hrec, ⟨-, -, rfl⟩ | ⟨-, -, hcol⟩⟩ := delete_full_collapse h
      · exact hb
      · have hrest := HexKey.rest_full hkey hi
        have hc := ih (c i) _ _ _ d' nn' hrec (hn i) hrest (hb.2 i)
        have hs := delete_shaped _ _ _ _ _ _ _ hrec (hn i) hrest
        exact hcol.branchy (update_child hs.noHash fun j => (hn j).noHash) (update_child hc hb.2) hb.1

end Delete

end Etherzero.Trie
