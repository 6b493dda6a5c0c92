import Mathlib
import Etherzero.Lemmas.TrieMap

set_option linter.dupNamespace false

/-!
# The trie in memory never fails

On a node of the shape that `insert` and `delete` build in memory, under hex keys, `insert` and `delete` never panic
and never report a missing node: they return, or run out of fuel, which they do only on a key at least as long as the
fuel (`insert_total`, `delete_total`). `tryGet` resolves nothing there, so it leaves the node in memory as it was.
-/

namespace Etherzero.Trie

/-- A key whose nibbles are below 17 has a child index at each of its positions. -/
theorem childIndex_isSome {key : List UInt8} (hnib : ∀ b ∈ key, b.toNat < 17) {pos : Nat} (hpos : pos < key.length) :
    ∃ i, childIndex key pos = some i := by
  have hb := hnib _ (List.getElem_mem hpos)
  exact ⟨⟨key[pos].toNat, hb⟩, by simp [childIndex, List.getElem?_eq_getElem hpos, hb]⟩

/-- Where a hex key leaves the key of a short node, it has a nibble left: the short key, with the terminator at most at
its end, cannot have the whole hex key as a proper prefix. -/
theorem prefixLen_lt_of_hexKey {key k : List UInt8} (hkey : HexKey key) (hk : KeyOK k) (hm : prefixLen key k ≠ k.length) :
    prefixLen key k < key.length := by
  rcases Nat.lt_or_eq_of_le (prefixLen_le_left key k) with hlt | heq
  · exact hlt
  · have htake : k.take key.length = key := by
      have := prefixLen_take key k
      rw [heq, List.take_length] at this
      exact this.symm
    have hkk := hk.eq_of_take htake hkey.hasTerm_true
    exact absurd (heq.trans (congrArg List.length hkk.symm)) hm

section Total

variable {db : List UInt8 → Option RawNode} {cg : UInt16}

/-- With no `hashNode` to load, `tryGet` resolves nothing, so the trie keeps the node it had. -/
theorem tryGet_noHash : ∀ fuel (n : Node) key pos v n' d, tryGet db cg fuel n key pos = .ok (v, n', d) → n.NoHash →
    d = false := by
  intro fuel
  induction fuel with
  | zero => intro _ _ _ _ _ _ h; cases h
  | succ fuel ih =>
    intro n key pos v n' d h hn
    cases n with
    | empty => cases h; rfl
    | value w => cases h; rfl
    | hash hh => exact absurd hn id
    | short k val f =>
      simp only [tryGet] at h
      split at h
      · cases h; rfl
      · obtain ⟨⟨value, newnode, didResolve⟩, hrec, h⟩ := except_bind_eq_ok.mp h
        rw [ih _ _ _ _ _ _ hrec hn] at h
        simp only [Bool.false_eq_true, if_false] at h
        cases h
        rfl
    | full c f =>
      simp only [tryGet] at h
      split at h
      · cases h
      · obtain ⟨⟨value, newnode, didResolve⟩, hrec, h⟩ := except_bind_eq_ok.mp h
        rw [ih _ _ _ _ _ _ hrec (hn _)] at h
        simp only [Bool.false_eq_true, if_false] at h
        cases h
        rfl

/-- `insert` of a value under a hex key, on a node of the shape, returns, or runs out of fuel on a key at least as long
as the fuel: it never panics and never reports a missing node. The induction is on the fuel, along the key. -/
theorem insert_total (w : List UInt8) : ∀ fuel (n : Node) t pfx key, n.Shaped t → HexRest t key →
    (∃ d nn, insert db cg fuel n pfx key (.value w) = .ok (d, nn)) ∨
      (insert db cg fuel n pfx key (.value w) = .error .deep ∧ fuel ≤ key.length) := by
  intro fuel
  induction fuel with
  | zero => intro _ _ _ _ _ _; exact .inr ⟨rfl, Nat.zero_le _⟩
  | succ fuel ih =>
    intro n t pfx key hn hkey
    by_cases hnil : key = []
    · -- with the key used up the value is put in place
      subst hnil
      left
      simp only [insert, List.length_nil, if_true]
      split
      · exact ⟨_, _, rfl⟩
      · exact ⟨_, _, rfl⟩
    obtain ⟨hkey, rfl⟩ := hkey.ne_nil hnil
    have hlen : key.length ≠ 0 := fun h => hnil (List.length_eq_zero_iff.mp h)
    cases n with
    | empty => exact .inl ⟨_, _, by simp only [insert, hlen, if_false]; rfl⟩
    | value v => cases hn
    | hash hh => exact absurd hn id
    | full c f =>
      obtain ⟨i, hi⟩ := childIndex_isSome hkey.le (List.length_pos_iff.mpr hnil)
      rcases ih (c i) _ (pfx ++ key.take 1) (key.drop 1) (hn i) (HexKey.rest_full hkey hi) with
        ⟨d', nn', hrec⟩ | ⟨hrec, hle⟩
      · left
        simp only [insert, hlen, if_false, hi, hrec]
        cases d'
        · exact ⟨_, _, rfl⟩
        · exact ⟨_, _, rfl⟩
      · right
        refine ⟨by simp only [insert, hlen, if_false, hi, hrec]; rfl, ?_⟩
        rw [List.length_drop] at hle
        omega
    | short k v f =>
      by_cases hm : prefixLen key k = k.length
      · -- the key goes through the short key: insert in the child
        have hk0 : 0 < k.length := List.length_pos_iff.mpr hn.1.1
        rcases ih v _ (pfx ++ key.take k.length) (key.drop k.length) hn.2.1
          (HexKey.rest_short hkey (take_of_prefixLen hm)) with ⟨d', nn', hrec⟩ | ⟨hrec, hle⟩
        · left
          simp only [insert, hlen, if_false, hm, if_true, hrec]
          cases d'
          · exact ⟨_, _, rfl⟩
          · exact ⟨_, _, rfl⟩
        · right
          refine ⟨by simp only [insert, hlen, if_false, hm, if_true, hrec]; rfl, ?_⟩
          rw [List.length_drop] at hle
          omega
      · -- the key leaves the short key: a new full node over two new children
        have hmk : prefixLen key k < k.length := Nat.lt_of_le_of_ne (prefixLen_le_right key k) hm
        obtain ⟨ki, hki⟩ := childIndex_isSome hn.1.2.2 hmk
        obtain ⟨kk, hkk⟩ := childIndex_isSome hkey.le (prefixLen_lt_of_hexKey hkey hn.1.2.1 hm)
        cases fuel with
        | zero =>
          right
          refine ⟨by simp only [insert, hlen, if_false, hm, hki]; rfl, ?_⟩
          omega
        | succ fuel =>
          left
          simp only [insert, hlen, if_false, hm, hki, hkk]
          -- each new child is the value itself or a short node over it
          split <;> split <;> split <;> exact ⟨_, _, rfl⟩

/-- `delete` under a hex key, on a node of the shape, returns, or runs out of fuel on a key at least as long as the
fuel: it never panics and never reports a missing node, since the child it resolves is in memory. The induction is on
the fuel, along the key. -/
theorem delete_total : ∀ fuel (n : Node) t pfx key, n.Shaped t → HexRest t key →
    (∃ d nn, delete db cg fuel n pfx key = .ok (d, nn)) ∨
      (delete db cg fuel n pfx key = .error .deep ∧ fuel ≤ key.length) := by
  intro fuel
  induction fuel with
  | zero => intro _ _ _ _ _ _; exact .inr ⟨rfl, Nat.zero_le _⟩
  | succ fuel ih =>
    intro n t pfx key hn hkey
    cases n with
    | empty => exact .inl ⟨_, _, delete_empty⟩
    | value w => exact .inl ⟨_, _, delete_value⟩
    | hash hh => cases t <;> exact absurd hn id
    | short k v f =>
      cases t with
      | true => exact absurd hn id
      | false =>
      by_cases hlt : prefixLen key k < k.length
      · exact .inl ⟨_, _, by simp only [delete, if_pos hlt]; rfl⟩
      have hm : prefixLen key k = k.length := le_antisymm (prefixLen_le_right _ _) (Nat.not_lt.mp hlt)
      by_cases heq : prefixLen key k = key.length
      · exact .inl ⟨_, _, by simp only [delete, if_neg hlt, if_pos heq]; rfl⟩
      -- the key goes on past the short key: delete in the child
      have hk0 : 0 < k.length := List.length_pos_iff.mpr hn.1.1
      rcases ih v _ (pfx ++ key.take k.length) (key.drop k.length) hn.2.1
        (HexKey.rest_short hkey (take_of_prefixLen hm)) with ⟨d', child, hrec⟩ | ⟨hrec, hle⟩
      · left
        simp only [delete, if_neg hlt, if_neg heq, hrec]
        cases d'
        · exact ⟨_, _, rfl⟩
        · simp only [bind, Except.bind, Bool.not_true, Bool.false_eq_true, if_false]
          split
          · exact ⟨_, _, rfl⟩
          · exact ⟨_, _, rfl⟩
      · right
        refine ⟨by simp only [delete, if_neg hlt, if_neg heq, hrec]; rfl, ?_⟩
        rw [List.length_drop] at hle
        have := prefixLen_le_left key k
        omega
    | full c f =>
      cases t with
      | true => exact absurd hn id
      | false =>
      replace hkey : HexKey key := hkey
      obtain ⟨i, hi⟩ := childIndex_isSome hkey.le (List.length_pos_iff.mpr hkey.ne_nil)
      rcases ih (c i) _ (pfx ++ key.take 1) (key.drop 1) (hn i) (HexKey.rest_full hkey hi) with
        ⟨d', nn', hrec⟩ | ⟨hrec, hle⟩
      · left
        simp only [delete, hi, hrec]
        cases d'
        · exact ⟨_, _, rfl⟩
        -- the children after the delete are in memory, so the one left resolves to itself
        have hs := delete_shaped _ _ _ _ _ _ _ hrec (hn i) (HexKey.rest_full hkey hi)
        have hno : ∀ j, (Function.update c i nn' j).NoHash := update_child hs.noHash fun j => (hn j).noHash
        simp only [bind, Except.bind, Bool.not_true, Bool.false_eq_true, if_false]
        split
        · split
          · rw [resolve_of_noHash (hno _)]
            dsimp only
            split
            · exact ⟨_, _, rfl⟩
            · exact ⟨_, _, rfl⟩
          · exact ⟨_, _, rfl⟩
        · exact ⟨_, _, rfl⟩
      · right
        refine ⟨by simp only [delete, hi, hrec]; rfl, ?_⟩
        rw [List.length_drop] at hle
        have := List.length_pos_iff.mpr hkey.ne_nil
        omega

end Total

/-! ## Hashing never fails -/

/-- A list of an even number of nibbles decodes to bytes. -/
theorem decodeNibbles_isSome : ∀ l : List UInt8, l.length % 2 = 0 → ∃ r, decodeNibbles l = some r
  | [], _ => ⟨[], rfl⟩
  | [_], h => by simp at h
  | high :: low :: rest, h => by
    obtain ⟨r, hr⟩ := decodeNibbles_isSome rest (by simp only [List.length_cons] at h; omega)
    exact ⟨_, by rw [decodeNibbles, hr]; rfl⟩

/-- Every key has a compact encoding. -/
theorem hexToCompact_isSome (hex : List UInt8) : ∃ c, hexToCompact hex = some c := by
  unfold hexToCompact
  dsimp only
  generalize (if hasTerm hex = true then hex.dropLast else hex) = l
  split
  · -- an odd number of nibbles: the first goes in the flag byte
    rename_i hodd
    cases l with
    | nil => simp at hodd
    | cons first rest =>
      obtain ⟨r, hr⟩ := decodeNibbles_isSome rest (by simp only [List.length_cons] at hodd; omega)
      exact ⟨_, by simp only [hr]; rfl⟩
  · rename_i heven
    obtain ⟨r, hr⟩ := decodeNibbles_isSome l (by omega)
    exact ⟨_, by rw [hr]; rfl⟩

section Hash

variable {encode : Node → List UInt8} {keccak : List UInt8 → List UInt8} {hs : Hasher}

/-- `hash` out of commit mode never panics on a node of the shape: no short node holds nil. The induction is on the
node, with the loop over a full node's children. -/
theorem hash_total : ∀ (n : Node) t, n.Shaped t → n ≠ .empty → ∀ force,
    ∃ r, hs.hash encode keccak false n force = some r := by
  intro n
  induction n with
  | empty => intro _ _ hne; exact absurd rfl hne
  | value w => intro _ _ _ force; exact ⟨_, rfl⟩
  | hash hh => intro t hn; cases t <;> exact absurd hn id
  | short k v f ih =>
    intro t hn _ force
    cases t with
    | true => exact absurd hn id
    | false =>
    simp only [Hasher.hash]
    split
    · exact ⟨_, rfl⟩
    · obtain ⟨ck, hck⟩ := hexToCompact_isSome k
      rw [hck]
      -- the short node holds a value, or a full node that is hashed in turn
      cases v with
      | value w => exact ⟨_, rfl⟩
      | full c f' =>
        obtain ⟨⟨a, b⟩, hr⟩ := ih _ hn.2.1 (fun h => Node.noConfusion h) false
        exact ⟨_, by simp only [hr]; rfl⟩
      | _ => exact absurd hn.2.2 id
  | full c f ih =>
    intro t hn _ force
    cases t with
    | true => exact absurd hn id
    | false =>
    simp only [Hasher.hash]
    split
    · exact ⟨_, rfl⟩
    · -- each child that is not empty is hashed
      refine FoldM.bind_isSome (FoldM.foldlM_option_some _ _ _ fun acc i _ => ?_) fun p => ?_
      · split
        · exact ⟨_, rfl⟩
        · rename_i hne
          obtain ⟨r, hr⟩ := ih i.castSucc _ (hn _) hne false
          refine FoldM.bind_isSome ⟨r, hr⟩ fun q => ?_
          obtain ⟨a, b⟩ := q
          exact ⟨_, rfl⟩
      · obtain ⟨a, b⟩ := p
        exact ⟨_, rfl⟩

/-- `Hash` on a trie of the shape never panics. -/
theorem Trie.hashRoot_total {t : Trie} (ht : t.root.Shaped false) : ∃ r, t.hashRoot encode keccak false = some r := by
  unfold Trie.hashRoot
  split
  · exact ⟨_, rfl⟩
  · rename_i hne
    exact hash_total _ _ ht hne true

end Hash

end Etherzero.Trie
