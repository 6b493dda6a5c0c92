import Mathlib
import Etherzero.Lemmas.TrieHash
import Etherzero.Theorems.TrieMap

set_option linter.dupNamespace false

/-!
# The root hash depends on the map only

`Hash` of a trie built in memory is a function of the map it holds, whatever order of updates and deletes built it
and whenever it was hashed before. Between commits the root stays in the minimal form (`Node.Branchy`), every hash it
caches is right (`Node.HashOK`), and it holds values only under the hex keys of byte keys (`Node.OnlyKeybytes`): that
is `Node.Canonical`, and every operation but a commit keeps it (`Trie.step_canonical`). Two roots of that form holding
one map are the same up to flags (`Node.reflagged_of_get`), and out of commit mode `hash` reads no flags, so they hash
to one hash (`Trie.hashRoot_eq`).

This rests on the encoding of a collapsed node reading no flags, which `rlp.Encode` does not: the flags of a node are
not exported.
-/

namespace Etherzero.Trie

/-- Values only under the hex keys of byte keys: `TryUpdate` and `TryDelete` reach no other key. -/
def Node.OnlyKeybytes (n : Node) : Prop :=
  ∀ key, HexKey key → (∀ kb, keybytesToHex kb ≠ key) → n.get key = some none

/-- The root of a trie between commits: the minimal form, hashes cached right, and values only under byte keys. -/
structure Node.Canonical (encode : Node → List UInt8) (keccak : List UInt8 → List UInt8) (n : Node) : Prop where
  branchy : n.Branchy
  hashOK : n.HashOK encode keccak true
  onlyKeybytes : n.OnlyKeybytes

/-! ## Values only under byte keys -/

section Only

variable {db : List UInt8 → Option RawNode} {cg : UInt16} {fuel : Nat} {n nn : Node} {pfx : List UInt8} {d : Bool}

theorem Node.OnlyKeybytes.reflagged {m : Node} (ho : n.OnlyKeybytes) (h : n.Reflagged m) : m.OnlyKeybytes :=
  fun key hk hkb => by rw [h.get, ho key hk hkb]

/-- `insert` under the hex key of a byte key puts no value under any other hex key. -/
theorem Node.OnlyKeybytes.insert (ho : n.OnlyKeybytes) (hn : n.NoHash) {key w : List UInt8}
    (h : insert db cg fuel n pfx (keybytesToHex key) (.value w) = .ok (d, nn)) : nn.OnlyKeybytes := by
  intro key' hk' hkb
  have hk := hexKey_keybytesToHex key
  rw [(insert_get _ _ _ _ _ _ _ h hn).2 _ hk'.le fun htake => hk'.eq_of_take hk htake, Node.graft,
    if_neg fun htake => hkb key (hk.eq_of_take hk' htake)]
  exact ho key' hk' hkb

/-- `delete` puts no value anywhere. -/
theorem Node.OnlyKeybytes.delete (ho : n.OnlyKeybytes) (hs : n.Shaped false) {key : List UInt8}
    (h : delete db cg fuel n pfx (keybytesToHex key) = .ok (d, nn)) : nn.OnlyKeybytes := by
  intro key' hk' hkb
  rw [(delete_get _ _ _ _ _ _ _ h hs (hexKey_keybytesToHex key)).2 _ hk', Node.graft]
  split
  · exact Node.get_empty _
  · exact ho key' hk' hkb

end Only

/-! ## Every operation but a commit keeps the form -/

section Step

variable {encode : Node → List UInt8} {keccak : List UInt8 → List UInt8} {fuel : Nat}
  {db : List UInt8 → Option RawNode} {cg : UInt16} {n nn : Node} {d : Bool}

theorem Node.canonical_empty : Node.empty.Canonical encode keccak := ⟨trivial, trivial, fun _ _ _ => rfl⟩

/-- `insert` of a value under the hex key of a byte key keeps the form. -/
theorem Node.Canonical.insert (hc : n.Canonical encode keccak) (hs : n.Shaped false) {key w : List UInt8}
    (h : insert db cg fuel n [] (keybytesToHex key) (.value w) = .ok (d, nn)) : nn.Canonical encode keccak where
  branchy := insert_branchy w _ _ _ _ _ _ _ h hs (hexKey_keybytesToHex key) hc.branchy
  hashOK := insert_hashOK _ _ _ _ _ _ _ _ h hs.noHash hc.hashOK trivial trivial
  onlyKeybytes := hc.onlyKeybytes.insert hs.noHash h

/-- `delete` of the hex key of a byte key keeps the form. -/
theorem Node.Canonical.delete (hc : n.Canonical encode keccak) (hs : n.Shaped false) {key : List UInt8}
    (h : delete db cg fuel n [] (keybytesToHex key) = .ok (d, nn)) : nn.Canonical encode keccak where
  branchy := delete_branchy _ _ _ _ _ _ _ h hs (hexKey_keybytesToHex key) hc.branchy
  hashOK := delete_hashOK _ _ _ _ _ _ _ _ h hs (hexKey_keybytesToHex key) hc.hashOK
  onlyKeybytes := hc.onlyKeybytes.delete hs h

/-- `hashRoot` out of commit mode on a root whose cached hashes are right keeps them right. -/
theorem Trie.hashRoot_hashOK (hen : ∀ n m, n.Reflagged m → encode n = encode m) {t : Trie} {hashed cached : Node}
    (h : t.hashRoot encode keccak false = some (hashed, cached)) (hn : t.root.HashOK encode keccak true) :
    cached.HashOK encode keccak true := by
  unfold Trie.hashRoot at h
  split at h
  · cases h
    trivial
  · exact hash_hashOK hen _ h hn

/-- `Hash` keeps the form: the root it keeps is the old one with other flags, and what it caches is right. -/
theorem Trie.hashRoot_canonical (hen : ∀ n m, n.Reflagged m → encode n = encode m) {t : Trie} {hashed cached : Node}
    (h : t.hashRoot encode keccak false = some (hashed, cached)) (hc : t.root.Canonical encode keccak) :
    cached.Canonical encode keccak where
  branchy := (Trie.hashRoot_reflagged h).branchy hc.branchy
  hashOK := Trie.hashRoot_hashOK hen h hc.hashOK
  onlyKeybytes := hc.onlyKeybytes.reflagged (Trie.hashRoot_reflagged h)

/-- Every operation but a commit keeps the root of a trie built in memory in the form. -/
theorem Trie.step_canonical (hen : ∀ n m, n.Reflagged m → encode n = encode m) {t t' : Trie} {op : Op}
    (hs : t.root.Shaped false) (hc : t.root.Canonical encode keccak) (hcommit : op.isCommit = false)
    (h : t.step encode keccak fuel op = some t') : t'.root.Canonical encode keccak := by
  cases op with
  | tryGet db key =>
    -- nothing is resolved in memory, so the root stays
    refine (Trie.afterOp_keeps (P := fun n => n.Canonical encode keccak) h hc fun root hroot => ?_).1
    obtain ⟨⟨v, newroot, didResolve⟩, hget, rfl⟩ := except_map_eq_ok.mp hroot
    rw [tryGet_noHash _ _ _ _ _ _ _ hget hs.noHash]
    exact hc
  | tryUpdate db key value =>
    simp only [Trie.step] at h
    split at h
    · refine (Trie.afterOp_keeps (P := fun n => n.Canonical encode keccak) h hc fun root hroot => ?_).1
      obtain ⟨⟨d, nn⟩, hins, rfl⟩ := except_map_eq_ok.mp hroot
      exact hc.insert hs hins
    · refine (Trie.afterOp_keeps (P := fun n => n.Canonical encode keccak) h hc fun root hroot => ?_).1
      obtain ⟨⟨d, nn⟩, hdel, rfl⟩ := except_map_eq_ok.mp hroot
      exact hc.delete hs hdel
  | tryDelete db key =>
    refine (Trie.afterOp_keeps (P := fun n => n.Canonical encode keccak) h hc fun root hroot => ?_).1
    obtain ⟨⟨d, nn⟩, hdel, rfl⟩ := except_map_eq_ok.mp hroot
    exact hc.delete hs hdel
  | hash =>
    obtain ⟨⟨hashed, cached⟩, hh, rfl⟩ := Option.map_eq_some_iff.mp h
    exact Trie.hashRoot_canonical hen hh hc
  | commit => cases hcommit
  | setCacheLimit l =>
    cases h
    exact hc

/-- Every run without a commit keeps the root of a trie that holds a map in the form. The induction is on the run,
with the map the run makes carried along for the shape. -/
theorem Trie.run_canonical (hen : ∀ n m, n.Reflagged m → encode n = encode m) :
    ∀ (ops : List Op) (t t' : Trie) (M : List UInt8 → Option (List UInt8)), t.Represents M →
      t.root.Canonical encode keccak → (∀ op ∈ ops, op.isCommit = false) → t.run encode keccak fuel ops = some t' →
      t'.root.Canonical encode keccak := by
  intro ops
  induction ops with
  | nil => intro t t' M _ hc _ h; cases h; exact hc
  | cons op ops ih =>
    intro t t' M hr hc hcommit h
    obtain ⟨t1, h1, h⟩ := Option.bind_eq_some_iff.mp h
    have hop := hcommit op List.mem_cons_self
    exact ih t1 t' _ (Trie.step_represents hr hop h1) (Trie.step_canonical hen hr.1 hc hop h1)
      (fun op' hop' => hcommit op' (List.mem_cons_of_mem op hop')) h

end Step

/-! ## One map, one hash -/

section Hash

variable {encode : Node → List UInt8} {keccak : List UInt8 → List UInt8}

/-- Two roots in the form that hold one map are the same up to flags. -/
theorem Node.reflagged_of_represents {n m : Node} {M : List UInt8 → Option (List UInt8)} (hn : n.Represents M)
    (hm : m.Represents M) (hcn : n.Canonical encode keccak) (hcm : m.Canonical encode keccak) : n.Reflagged m := by
  refine Node.reflagged_of_get hn.1 hm.1 hcn.branchy hcm.branchy fun key hkey => ?_
  -- a byte key reads the map, any other hex key nothing
  by_cases hkb : ∃ kb, keybytesToHex kb = key
  · obtain ⟨kb, rfl⟩ := hkb
    rw [hn.2, hm.2]
  · simp only [not_exists] at hkb
    rw [hcn.onlyKeybytes key hkey hkb, hcm.onlyKeybytes key hkey hkb]

theorem Trie.hashRoot_of_ne_empty {t : Trie} {commit : Bool} (h : t.root ≠ .empty) :
    t.hashRoot encode keccak commit = (Hasher.mk t.cachegen t.cachelimit).hash encode keccak commit t.root true := by
  unfold Trie.hashRoot
  split
  · contradiction
  · rfl

theorem Trie.hashRoot_of_eq_empty {t : Trie} {commit : Bool} (h : t.root = .empty) :
    t.hashRoot encode keccak commit = some (.hash emptyRoot, .empty) := by
  unfold Trie.hashRoot
  rw [h]

/-- `Hash` of two tries in the form that hold one map gives one hash. -/
theorem Trie.hashRoot_eq (hen : ∀ n m, n.Reflagged m → encode n = encode m) {t₁ t₂ : Trie}
    {M : List UInt8 → Option (List UInt8)} (hr₁ : t₁.Represents M) (hr₂ : t₂.Represents M)
    (hc₁ : t₁.root.Canonical encode keccak) (hc₂ : t₂.root.Canonical encode keccak) :
    ∃ h, (t₁.hashRoot encode keccak false).map Prod.fst = some (.hash h) ∧
      (t₂.hashRoot encode keccak false).map Prod.fst = some (.hash h) := by
  have hrefl := Node.reflagged_of_represents hr₁ hr₂ hc₁ hc₂
  by_cases he : t₁.root = .empty
  · -- both empty: the hash of the empty trie
    rw [Trie.hashRoot_of_eq_empty he, Trie.hashRoot_of_eq_empty (hrefl.eq_empty.mp he)]
    exact ⟨emptyRoot, rfl, rfl⟩
  · have he₂ : t₂.root ≠ .empty := fun h => he (hrefl.eq_empty.mpr h)
    -- out of commit mode the two hashers agree, and the roots are hashed alike
    let hs : Hasher := ⟨t₁.cachegen, t₁.cachelimit⟩
    rw [Trie.hashRoot_of_ne_empty he, Trie.hashRoot_of_ne_empty he₂, Hasher.hash_false_congr ⟨t₂.cachegen, t₂.cachelimit⟩ hs t₂.root true]
    obtain ⟨⟨x, y⟩, hx⟩ := @hash_total encode keccak hs _ _ hr₁.1 he true
    obtain ⟨hh, rfl⟩ := Hasher.hash_true_isHash hx
    have hrel := hash_rel_of_reflagged hen hs hrefl hc₁.hashOK hc₂.hashOK
    rw [hx] at hrel
    obtain ⟨⟨x', y'⟩, hx', hrel'⟩ := FoldM.rel_some_left hrel
    refine ⟨hh, by rw [hx]; rfl, ?_⟩
    rw [hx', Option.map_some, Node.Reflagged.hash_left hrel']

/-- `Commit` and `Hash` of a root whose cached hashes are right give one hash: `Commit` takes a clean node's hash from
the cache and hashes a dirty one again, to the hash `Hash` cached for it. -/
theorem Trie.hashRoot_commit_eq (hen : ∀ n m, n.Reflagged m → encode n = encode m) {t : Trie}
    (hs : t.root.Shaped false) (hn : t.root.HashOK encode keccak true) :
    ∃ h, (t.hashRoot encode keccak true).map Prod.fst = some (.hash h) ∧
      (t.hashRoot encode keccak false).map Prod.fst = some (.hash h) := by
  by_cases he : t.root = .empty
  · rw [Trie.hashRoot_of_eq_empty he, Trie.hashRoot_of_eq_empty he]
    exact ⟨emptyRoot, rfl, rfl⟩
  · let hsr : Hasher := ⟨t.cachegen, t.cachelimit⟩
    rw [Trie.hashRoot_of_ne_empty he, Trie.hashRoot_of_ne_empty he]
    obtain ⟨⟨x, y⟩, hx⟩ := @hash_total encode keccak hsr _ _ hs he true
    obtain ⟨hh, rfl⟩ := Hasher.hash_true_isHash hx
    -- both are hashed as the root without its caches
    have hrel := hashRel_trans (hash_commit_dropCache hen hsr hn) (hashRel_symm (hash_dropCache hen hsr hn))
    rw [hx] at hrel
    obtain ⟨⟨x', y'⟩, hx', hrel'⟩ := FoldM.rel_some_right hrel
    refine ⟨hh, ?_, by rw [hx]; rfl⟩
    rw [hx', Option.map_some, Node.Reflagged.hash_left (Node.Reflagged.symm hrel')]

end Hash

end Etherzero.Trie
