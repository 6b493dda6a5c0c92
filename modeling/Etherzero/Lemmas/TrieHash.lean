import Mathlib
import Etherzero.Lemmas.TrieCanon

/-!
# Hashing out of commit mode reads no flags

`hash` takes a node's cached hash where it has one, and otherwise hashes its children, collapses the node and
`store`s it. Every hash cached in a trie is the one `hash` computes for the node without the caches
(`Node.HashOK`): a node that `insert` or `delete` makes caches none (`insert_hashOK`, `delete_hashOK`), and `hash`
caches only the hashes it has just computed (`hash_hashOK`). So out of commit mode `hash` gives a node what it gives
the node without its caches (`hash_dropCache`), and that depends on the nodes, keys and values only, not on flags
(`hash_dropCache_reflagged`), as long as the encoding of a collapsed node reads no flags, which `rlp.Encode` does
not: the flags of a node are not exported.
-/

namespace Etherzero.Trie

/-- The node with every cached hash dropped. -/
def Node.dropCache : Node → Node
  | .full c f => .full (fun i => (c i).dropCache) { f with hash := none }
  | .short k v f => .short k v.dropCache { f with hash := none }
  | n => n

/-- Two results of `hash` whose collapsed nodes are the same up to flags. -/
def HashRel (a b : Node × Node) : Prop := a.1.Reflagged b.1

variable (encode : Node → List UInt8) (keccak : List UInt8 → List UInt8) in
/-- Two results of `hash` that stored two nodes the same up to flags, of flags `f` and `f'`. -/
def StoredAlike (force : Bool) (f f' : NodeFlag) (p q : Node × Node) : Prop :=
  ∃ x y : Node, x.Reflagged y ∧ x.cache = some (f.hash, f.dirty) ∧ y.cache = some (f'.hash, f'.dirty) ∧
    p.1 = store encode keccak x force ∧ q.1 = store encode keccak y force

variable (encode : Node → List UInt8) (keccak : List UInt8 → List UInt8) in
/-- Every hash cached in the node is the one `hash` computes out of commit mode for the node without its caches:
stored with `force` for the node itself, stored in its parent for every node below it. -/
def Node.HashOK : Bool → Node → Prop
  | force, .full c f => (∀ h, f.hash = some h → ∀ hs : Hasher,
      (hs.hash encode keccak false (Node.full c f).dropCache force).map Prod.fst = some (.hash h)) ∧
      ∀ i, (c i).HashOK false
  | force, .short k v f => (∀ h, f.hash = some h → ∀ hs : Hasher,
      (hs.hash encode keccak false (Node.short k v f).dropCache force).map Prod.fst = some (.hash h)) ∧
      v.HashOK false
  | _, _ => True

/-! ## Flags -/

theorem Node.Reflagged.symm {n : Node} : ∀ {m : Node}, n.Reflagged m → m.Reflagged n := by
  induction n with
  | full c f ih =>
    intro m h
    cases m with
    | full c' f' => exact fun i => ih i (h i)
    | _ => exact absurd h id
  | short k v f ih =>
    intro m h
    cases m with
    | short k' v' f' => exact ⟨h.1.symm, ih h.2⟩
    | _ => exact absurd h id
  | empty => intro m h; cases m <;> exact h
  | value w => intro m h; cases m <;> first | exact (show _ = _ from h).symm | exact absurd h id
  | hash hh => intro m h; cases m <;> first | exact (show _ = _ from h).symm | exact absurd h id

theorem Node.Reflagged.trans {n : Node} : ∀ {m p : Node}, n.Reflagged m → m.Reflagged p → n.Reflagged p := by
  induction n with
  | full c f ih =>
    intro m p h h'
    cases m <;> cases p <;> first | exact absurd h id | exact absurd h' id | exact fun i => ih i (h i) (h' i)
  | short k v f ih =>
    intro m p h h'
    cases m <;> cases p <;> first | exact absurd h id | exact absurd h' id | exact ⟨h.1.trans h'.1, ih h.2 h'.2⟩
  | empty => intro m p h h'; cases m <;> first | exact h' | exact absurd h id
  | value w =>
    intro m p h h'
    cases m <;> cases p <;> first | exact absurd h id | exact absurd h' id | exact (show _ = _ from h).trans h'
  | hash hh =>
    intro m p h h'
    cases m <;> cases p <;> first | exact absurd h id | exact absurd h' id | exact (show _ = _ from h).trans h'

/-- A hash node has no flags: only itself is the same up to flags. -/
theorem Node.Reflagged.hash_left {h : List UInt8} {m : Node} (hm : (Node.hash h).Reflagged m) : m = .hash h := by
  cases m <;> first | exact absurd hm id | exact congrArg Node.hash (show _ = _ from hm).symm

theorem Node.reflagged_dropCache (n : Node) : n.Reflagged n.dropCache := by
  induction n with
  | full c f ih => exact ih
  | short k v f ih => exact ⟨rfl, ih⟩
  | _ => exact Node.Reflagged.refl _

theorem update_reflagged {a b : Fin 17 → Node} (h : ∀ j, (a j).Reflagged (b j)) {i : Fin 17} {x y : Node}
    (hxy : x.Reflagged y) : ∀ j, (Function.update a i x j).Reflagged (Function.update b i y j) := by
  intro j
  rw [Function.update_apply, Function.update_apply]
  split
  · exact hxy
  · exact h j

theorem NodeFlag.with_hash_none {f : NodeFlag} (h : f.hash = none) : { f with hash := none } = f := by
  cases f
  simp only at h
  rw [h]

/-- `hash` caches a hash only where it stored the node under it. -/
theorem NodeFlag.setCache_hash {f : NodeFlag} {hashed : Node} {commit : Bool} {h : List UInt8}
    (hf : (f.setCache hashed commit).hash = some h) : hashed = .hash h := by
  cases hashed <;> simp_all [NodeFlag.setCache]

theorem hashRel_refl (x : Option (Node × Node)) : Option.Rel HashRel x x := by
  cases x with
  | none => exact .none
  | some a => exact .some (Node.Reflagged.refl a.1)

theorem hashRel_symm {x y : Option (Node × Node)} (h : Option.Rel HashRel x y) : Option.Rel HashRel y x := by
  cases h with
  | none => exact .none
  | some hab => exact .some (Node.Reflagged.symm hab)

theorem hashRel_trans {x y z : Option (Node × Node)} (h : Option.Rel HashRel x y) (h' : Option.Rel HashRel y z) :
    Option.Rel HashRel x z := by
  cases h with
  | none => cases h'; exact .none
  | some hab =>
    cases h' with
    | some hbc => exact .some (Node.Reflagged.trans hab hbc)

/-- A result of `hash` that is the hash another gives is related to it. -/
theorem hashRel_of_hash {r : Node × Node} {y : Option (Node × Node)} {hh : List UInt8} (hr : r.1 = .hash hh)
    (hy : y.map Prod.fst = some (.hash hh)) : Option.Rel HashRel (some r) y := by
  obtain ⟨q, rfl, hq⟩ := Option.map_eq_some_iff.mp hy
  exact .some (show r.1.Reflagged q.1 by rw [hr, hq]; exact Node.Reflagged.refl _)

/-! ## What `hash` computes -/

section Hash

variable {encode : Node → List UInt8} {keccak : List UInt8 → List UInt8}

/-- `store` of a node without a cached hash: the node itself under 32 bytes when not forced, its Keccak otherwise. -/
theorem store_eq {n : Node} (force : Bool) (hn : ∀ hh b, n.cache ≠ some (some hh, b)) (he : n ≠ .empty)
    (hh : ∀ h, n ≠ .hash h) :
    store encode keccak n force = if (encode n).length < 32 ∧ force = false then n else .hash (keccak (encode n)) := by
  cases n with
  | empty => exact absurd rfl he
  | hash h => exact absurd rfl (hh h)
  | _ => simp only [store]

/-- `store` of a node with a cached hash: the node itself under 32 bytes when not forced, the cached hash otherwise. -/
theorem store_eq_of_cache {n : Node} {hh : List UInt8} {b : Bool} (force : Bool) (hn : n.cache = some (some hh, b)) :
    store encode keccak n force = if (encode n).length < 32 ∧ force = false then n else .hash hh := by
  cases n with
  | full c f =>
    simp only [Node.cache, Option.some.injEq, Prod.mk.injEq] at hn
    simp only [store, Node.cache, hn.1]
  | short k v f =>
    simp only [Node.cache, Option.some.injEq, Prod.mk.injEq] at hn
    simp only [store, Node.cache, hn.1]
  | _ => simp [Node.cache] at hn

/-- Forced, `store` always gives a hash. -/
theorem store_true_isHash {n : Node} (he : n ≠ .empty) : ∃ h, store encode keccak n true = .hash h := by
  cases n with
  | empty => exact absurd rfl he
  | hash h => exact ⟨h, rfl⟩
  | _ =>
    simp only [store, Bool.true_eq_false, and_false, if_false]
    split
    · exact ⟨_, rfl⟩
    · exact ⟨_, rfl⟩

/-- Out of commit mode the hasher's generation and limit play no part. -/
theorem Hasher.hash_false_congr (hs hs' : Hasher) (n : Node) :
    ∀ force, hs.hash encode keccak false n force = hs'.hash encode keccak false n force := by
  induction n with
  | full c f ih =>
    intro force
    simp only [Hasher.hash, Hasher.fromCache, Bool.not_false, if_true, ih]
  | short k v f ih =>
    intro force
    simp only [Hasher.hash, Hasher.fromCache, Bool.not_false, if_true, ih]
  | _ => intro force; rfl

/-- Out of commit mode a node with a cached hash is hashed to it and kept. -/
theorem Hasher.hash_of_cache {hs : Hasher} {n : Node} {h : List UInt8} {b : Bool} (hc : n.cache = some (some h, b))
    (force : Bool) : hs.hash encode keccak false n force = some (.hash h, n) := by
  cases n with
  | full c f =>
    simp only [Node.cache, Option.some.injEq, Prod.mk.injEq] at hc
    simp [Hasher.hash, Hasher.fromCache, hc.1]
  | short k v f =>
    simp only [Node.cache, Option.some.injEq, Prod.mk.injEq] at hc
    simp [Hasher.hash, Hasher.fromCache, hc.1]
  | _ => simp [Node.cache] at hc

/-- Forced, `hash` out of commit mode gives a hash. -/
theorem Hasher.hash_true_isHash {hs : Hasher} {n x y : Node} (h : hs.hash encode keccak false n true = some (x, y)) :
    ∃ hh, x = .hash hh := by
  cases n with
  | empty => cases h
  | hash hh =>
    cases h
    exact ⟨hh, rfl⟩
  | value w =>
    cases h
    exact store_true_isHash fun he => Node.noConfusion he
  | short k v f =>
    simp only [Hasher.hash] at h
    split at h
    · rename_i r hr
      cases h
      simp only [Hasher.fromCache, Bool.not_false, if_true] at hr
      split at hr
      · cases hr
      · cases hr
        exact ⟨_, rfl⟩
    · obtain ⟨ck, -, h⟩ := Option.bind_eq_some_iff.mp h
      -- a value child is kept as it is, any other hashed
      split at h <;>
      · obtain ⟨⟨cv1, cv2⟩, -, h⟩ := Option.bind_eq_some_iff.mp h
        cases h
        exact store_true_isHash fun he => Node.noConfusion he
  | full c f =>
    simp only [Hasher.hash] at h
    split at h
    · rename_i r hr
      cases h
      simp only [Hasher.fromCache, Bool.not_false, if_true] at hr
      split at hr
      · cases hr
      · cases hr
        exact ⟨_, rfl⟩
    · obtain ⟨⟨coll, cc⟩, -, h⟩ := Option.bind_eq_some_iff.mp h
      cases h
      exact store_true_isHash fun he => Node.noConfusion he

/-- In commit mode too, a cached hash is all that `fromCache` gives. -/
theorem Hasher.fromCache_some {hs : Hasher} {commit : Bool} {n : Node} {f : NodeFlag} {r : Node × Node}
    (h : hs.fromCache commit n f = some r) : ∃ hh, f.hash = some hh ∧ r.1 = .hash hh := by
  unfold Hasher.fromCache at h
  split at h
  · cases h
  · rename_i hh hf
    refine ⟨hh, hf, ?_⟩
    split_ifs at h <;> cases h <;> rfl

theorem Hasher.fromCache_of_hash_none {hs : Hasher} {commit : Bool} {n : Node} {f : NodeFlag} (hf : f.hash = none) :
    hs.fromCache commit n f = none := by
  simp [Hasher.fromCache, hf]

/-- Two short nodes that `hash` does not take from the cache, with one key and children hashed alike, store nodes the
same up to flags, in or out of commit mode. -/
theorem hash_short_stores {hs hs' : Hasher} {commit commit' : Bool} {k : List UInt8} {v v' : Node} {f f' : NodeFlag}
    (hfc : hs.fromCache commit (.short k v f) f = none) (hfc' : hs'.fromCache commit' (.short k v' f') f' = none)
    (hv : v.Reflagged v')
    (hrel : Option.Rel HashRel (hs.hash encode keccak commit v false) (hs'.hash encode keccak commit' v' false))
    (force : Bool) :
    Option.Rel (StoredAlike encode keccak force f f') (hs.hash encode keccak commit (.short k v f) force)
      (hs'.hash encode keccak commit' (.short k v' f') force) := by
  simp only [Hasher.hash, hfc, hfc']
  -- the same compact key on both sides
  have hck : Option.Rel Eq (hexToCompact k) (hexToCompact k) := by
    cases hexToCompact k with
    | none => exact .none
    | some ck => exact .some rfl
  refine FoldM.bind_rel hck fun ck ck' (he : ck = ck') => ?_
  subst he
  -- a value child is kept as it is, any other hashed
  cases v <;> cases v' <;> first
    | exact absurd hv id
    | exact FoldM.bind_rel (.some hv) fun a b (hab : HashRel a b) =>
        .some ⟨.short ck a.1 f, .short ck b.1 f', ⟨rfl, hab⟩, rfl, rfl, rfl, rfl⟩
    | exact FoldM.bind_rel hrel fun a b (hab : HashRel a b) =>
        .some ⟨.short ck a.1 f, .short ck b.1 f', ⟨rfl, hab⟩, rfl, rfl, rfl, rfl⟩

/-- Two full nodes that `hash` does not take from the cache, with children the same up to flags and hashed alike,
store nodes the same up to flags, in or out of commit mode. -/
theorem hash_full_stores {hs hs' : Hasher} {commit commit' : Bool} {c c' : Fin 17 → Node} {f f' : NodeFlag}
    (hfc : hs.fromCache commit (.full c f) f = none) (hfc' : hs'.fromCache commit' (.full c' f') f' = none)
    (hc : ∀ i, (c i).Reflagged (c' i))
    (hrel : ∀ i : Fin 16, Option.Rel HashRel (hs.hash encode keccak commit (c i.castSucc) false)
      (hs'.hash encode keccak commit' (c' i.castSucc) false)) (force : Bool) :
    Option.Rel (StoredAlike encode keccak force f f') (hs.hash encode keccak commit (.full c f) force)
      (hs'.hash encode keccak commit' (.full c' f') force) := by
  simp only [Hasher.hash, hfc, hfc']
  -- the loop keeps the collapsed children the same up to flags
  refine FoldM.bind_rel (FoldM.foldlM_rel (fun acc acc' => ∀ j, (acc.1 j).Reflagged (acc'.1 j)) _ _ _ (c, c) (c', c')
    (fun acc acc' i _ hacc => ?_) hc) fun a b hab => .some ?_
  · split
    · rename_i he
      have he' : c' i.castSucc = .empty := (hc _).eq_empty.mp he
      simp only [he']
      exact .some hacc
    · rename_i hne
      have hne' : c' i.castSucc ≠ .empty := fun he => hne ((hc _).eq_empty.mpr he)
      split
      · contradiction
      · exact FoldM.bind_rel (hrel i) fun p q hpq => .some (update_reflagged hacc hpq)
  · exact ⟨.full a.1 f, .full b.1 f', hab, rfl, rfl, rfl, rfl⟩

/-! ## Flags do not change what `hash` computes -/

section FlagBlind

/- The encoding of a collapsed node reads no flags. -/
variable (hen : ∀ n m, n.Reflagged m → encode n = encode m)
include hen

/-- `store` of two nodes the same up to flags, neither with a cached hash, gives nodes the same up to flags. -/
theorem store_reflagged {n m : Node} (h : n.Reflagged m) (hn : ∀ hh b, n.cache ≠ some (some hh, b))
    (hm : ∀ hh b, m.cache ≠ some (some hh, b)) (force : Bool) :
    (store encode keccak n force).Reflagged (store encode keccak m force) := by
  by_cases he : n = .empty
  · subst he
    have hme : m = .empty := (h.eq_empty).mp rfl
    subst hme
    exact h
  by_cases hh : ∃ hh, n = .hash hh
  · obtain ⟨hh, rfl⟩ := hh
    cases m <;> first | exact absurd h id | exact h
  simp only [not_exists] at hh
  have hme : m ≠ .empty := fun hme => he ((h.eq_empty).mpr hme)
  have hmh : ∀ x, m ≠ .hash x := by
    rintro x rfl
    cases n <;> first | exact absurd h id | exact hh x (by rw [show _ = x from h])
  rw [store_eq force hn he hh, store_eq force hm hme hmh, hen n m h]
  split_ifs
  · exact h
  · exact Node.Reflagged.refl _

/-- `store` of a node with a cached hash gives that hash where `store` of a node the same up to flags without one
gives it: the two take the same branch. -/
theorem store_of_cache {n m : Node} {hh : List UInt8} {b force : Bool} (h : n.Reflagged m)
    (hn : n.cache = some (some hh, b)) (hm : ∀ x b, m.cache ≠ some (some x, b))
    (hs : store encode keccak m force = .hash hh) : store encode keccak n force = .hash hh := by
  have hme : m ≠ .empty := by
    intro hme
    rw [(h.eq_empty).mpr hme] at hn
    simp [Node.cache] at hn
  have hmh : ∀ x, m ≠ .hash x := by
    intro x hx
    rw [hx] at h
    rw [(Node.Reflagged.symm h).hash_left] at hn
    simp [Node.cache] at hn
  rw [store_eq force hm hme hmh] at hs
  rw [store_eq_of_cache force hn, hen n m h]
  split_ifs at hs ⊢
  · exact absurd hs (hmh hh)
  · rfl

/-- Stored nodes the same up to flags, neither with a cached hash, are the same up to flags. -/
theorem StoredAlike.hashRel {force : Bool} {f f' : NodeFlag} {p q : Node × Node}
    (h : StoredAlike encode keccak force f f' p q) (hf : f.hash = none) (hf' : f'.hash = none) : HashRel p q := by
  obtain ⟨x, y, hxy, hx, hy, hp, hq⟩ := h
  show p.1.Reflagged q.1
  rw [hp, hq]
  exact store_reflagged hen hxy (by simp [hx, hf]) (by simp [hy, hf']) force

/-- A stored node with a cached hash is stored under it, where the one without a cached hash is stored under it. -/
theorem StoredAlike.eq_hash {force : Bool} {f f' : NodeFlag} {p q : Node × Node} {hh : List UInt8}
    (h : StoredAlike encode keccak force f f' p q) (hf : f.hash = some hh) (hf' : f'.hash = none)
    (hq : q.1 = .hash hh) : p.1 = .hash hh := by
  obtain ⟨x, y, hxy, hx, hy, hp, hq'⟩ := h
  rw [hp]
  exact store_of_cache hen hxy (by rw [hx, hf]) (by simp [hy, hf']) (hq'.symm.trans hq)

/-- Results of `hash` that stored nodes the same up to flags are hashed alike, where the second node has no cached
hash and the first one's is the hash that the second gives. -/
theorem rel_of_storedAlike {x y : Option (Node × Node)} {force : Bool} {f f' : NodeFlag}
    (h : Option.Rel (StoredAlike encode keccak force f f') x y) (hf' : f'.hash = none)
    (hy : ∀ hh, f.hash = some hh → y.map Prod.fst = some (.hash hh)) : Option.Rel HashRel x y := by
  cases hf : f.hash with
  | none => exact FoldM.rel_mono h fun p q hpq => hpq.hashRel hen hf hf'
  | some hh =>
    obtain ⟨q, rfl, hq⟩ := Option.map_eq_some_iff.mp (hy hh hf)
    obtain ⟨p, rfl, hpq⟩ := FoldM.rel_some_right h
    exact hashRel_of_hash (hpq.eq_hash hen hf hf' hq) (by rw [Option.map_some, hq])

/-- Two short nodes without a cached hash, with the same key and children hashed alike, are hashed alike. -/
theorem hash_short_rel {hs : Hasher} {k : List UInt8} {v v' : Node} {f f' : NodeFlag} (hf : f.hash = none)
    (hf' : f'.hash = none) (hv : v.Reflagged v')
    (hrel : Option.Rel HashRel (hs.hash encode keccak false v false) (hs.hash encode keccak false v' false))
    (force : Bool) :
    Option.Rel HashRel (hs.hash encode keccak false (.short k v f) force)
      (hs.hash encode keccak false (.short k v' f') force) :=
  FoldM.rel_mono (hash_short_stores (Hasher.fromCache_of_hash_none hf) (Hasher.fromCache_of_hash_none hf') hv hrel
    force) fun _ _ h => h.hashRel hen hf hf'

/-- Two full nodes without a cached hash, with children the same up to flags and hashed alike, are hashed alike. -/
theorem hash_full_rel {hs : Hasher} {c c' : Fin 17 → Node} {f f' : NodeFlag} (hf : f.hash = none)
    (hf' : f'.hash = none) (hc : ∀ i, (c i).Reflagged (c' i))
    (hrel : ∀ i : Fin 16, Option.Rel HashRel (hs.hash encode keccak false (c i.castSucc) false)
      (hs.hash encode keccak false (c' i.castSucc) false)) (force : Bool) :
    Option.Rel HashRel (hs.hash encode keccak false (.full c f) force)
      (hs.hash encode keccak false (.full c' f') force) :=
  FoldM.rel_mono (hash_full_stores (Hasher.fromCache_of_hash_none hf) (Hasher.fromCache_of_hash_none hf') hc hrel
    force) fun _ _ h => h.hashRel hen hf hf'

/-- Without their caches, two nodes the same up to flags are hashed alike. The induction is on the node. -/
theorem hash_dropCache_reflagged (hs : Hasher) {n : Node} : ∀ {m : Node}, n.Reflagged m → ∀ force,
    Option.Rel HashRel (hs.hash encode keccak false n.dropCache force) (hs.hash encode keccak false m.dropCache force) := by
  induction n with
  | full c f ih =>
    intro m h force
    cases m with
    | full c' f' =>
      refine hash_full_rel hen rfl rfl (fun i => ?_) (fun i => ih i.castSucc (h i.castSucc) false) force
      exact ((Node.reflagged_dropCache (c i)).symm.trans (h i)).trans (Node.reflagged_dropCache (c' i))
    | _ => exact absurd h id
  | short k v f ih =>
    intro m h force
    cases m with
    | short k' v' f' =>
      obtain ⟨rfl, hv⟩ := h
      exact hash_short_rel hen rfl rfl (((Node.reflagged_dropCache v).symm.trans hv).trans (Node.reflagged_dropCache v'))
        (ih hv false) force
    | _ => exact absurd h id
  | empty => intro m h force; cases m <;> first | exact absurd h id | exact hashRel_refl _
  | value w =>
    intro m h force
    cases m <;> first | exact absurd h id | (obtain rfl : _ = _ := h; exact hashRel_refl _)
  | hash hh =>
    intro m h force
    cases m <;> first | exact absurd h id | (obtain rfl : _ = _ := h; exact hashRel_refl _)

/-- A node whose cached hashes are right is hashed as the node without its caches. The induction is on the node: a
cached hash is the one computed without the caches, and a node without one is hashed from its children. -/
theorem hash_dropCache (hs : Hasher) {n : Node} : ∀ {force}, n.HashOK encode keccak force →
    Option.Rel HashRel (hs.hash encode keccak false n force) (hs.hash encode keccak false n.dropCache force) := by
  induction n with
  | full c f ih =>
    intro force hn
    cases hf : f.hash with
    | some h =>
      obtain ⟨⟨x, y⟩, hx, hxh⟩ := Option.map_eq_some_iff.mp (hn.1 h hf hs)
      rw [Hasher.hash_of_cache (h := h) (b := f.dirty) (by simp [Node.cache, hf]) force, hx]
      simp only at hxh
      subst hxh
      exact .some (Node.Reflagged.refl _)
    | none =>
      have hd : (Node.full c f).dropCache = .full (fun i => (c i).dropCache) f := by
        simp only [Node.dropCache, NodeFlag.with_hash_none hf]
      rw [hd]
      exact hash_full_rel hen hf hf (fun i => Node.reflagged_dropCache (c i)) (fun i => ih i.castSucc (hn.2 _)) force
  | short k v f ih =>
    intro force hn
    cases hf : f.hash with
    | some h =>
      obtain ⟨⟨x, y⟩, hx, hxh⟩ := Option.map_eq_some_iff.mp (hn.1 h hf hs)
      rw [Hasher.hash_of_cache (h := h) (b := f.dirty) (by simp [Node.cache, hf]) force, hx]
      simp only at hxh
      subst hxh
      exact .some (Node.Reflagged.refl _)
    | none =>
      have hd : (Node.short k v f).dropCache = .short k v.dropCache f := by
        simp only [Node.dropCache, NodeFlag.with_hash_none hf]
      rw [hd]
      exact hash_short_rel hen hf hf (Node.reflagged_dropCache v) (ih hn.2) force
  | _ => intro force _; exact hashRel_refl _

/-- Two nodes the same up to flags whose cached hashes are right are hashed alike out of commit mode. -/
theorem hash_rel_of_reflagged (hs : Hasher) {n m : Node} {force : Bool} (h : n.Reflagged m)
    (hn : n.HashOK encode keccak force) (hm : m.HashOK encode keccak force) :
    Option.Rel HashRel (hs.hash encode keccak false n force) (hs.hash encode keccak false m force) :=
  hashRel_trans (hash_dropCache hen hs hn)
    (hashRel_trans (hash_dropCache_reflagged hen hs h force) (hashRel_symm (hash_dropCache hen hs hm)))

/-- In commit mode a node whose cached hashes are right is hashed as the node without its caches out of commit mode:
a node taken from the cache gives its cached hash, and a dirty node hashed again is stored under the hash it has
cached. The induction is on the node. -/
theorem hash_commit_dropCache (hs : Hasher) {n : Node} : ∀ {force}, n.HashOK encode keccak force →
    Option.Rel HashRel (hs.hash encode keccak true n force) (hs.hash encode keccak false n.dropCache force) := by
  induction n with
  | full c f ih =>
    intro force hn
    cases hfc : hs.fromCache true (.full c f) f with
    | some r =>
      obtain ⟨hh, hf, hr⟩ := Hasher.fromCache_some hfc
      have hl : hs.hash encode keccak true (.full c f) force = some r := by simp only [Hasher.hash, hfc]
      rw [hl]
      exact hashRel_of_hash hr (hn.1 hh hf hs)
    | none =>
      exact rel_of_storedAlike hen (hash_full_stores hfc (Hasher.fromCache_of_hash_none rfl)
        (fun i => Node.reflagged_dropCache (c i)) (fun i => ih i.castSucc (hn.2 _)) force) rfl
        fun hh hf => hn.1 hh hf hs
  | short k v f ih =>
    intro force hn
    cases hfc : hs.fromCache true (.short k v f) f with
    | some r =>
      obtain ⟨hh, hf, hr⟩ := Hasher.fromCache_some hfc
      have hl : hs.hash encode keccak true (.short k v f) force = some r := by simp only [Hasher.hash, hfc]
      rw [hl]
      exact hashRel_of_hash hr (hn.1 hh hf hs)
    | none =>
      exact rel_of_storedAlike hen (hash_short_stores hfc (Hasher.fromCache_of_hash_none rfl)
        (Node.reflagged_dropCache v) (ih hn.2) force) rfl fun hh hf => hn.1 hh hf hs
  | _ => intro force _; exact hashRel_refl _

/-- What `hash` caches for a node whose cached hashes are right is right: the hash it stored the node under is the one
computed without the caches for the node it keeps. -/
theorem hash_cache_right {hs : Hasher} {n hashed cached : Node} {force : Bool}
    (h : hs.hash encode keccak false n force = some (hashed, cached)) (hn : n.HashOK encode keccak force)
    {hh : List UInt8} (hhash : hashed = .hash hh) (hs' : Hasher) :
    (hs'.hash encode keccak false cached.dropCache force).map Prod.fst = some (.hash hh) := by
  rw [Hasher.hash_false_congr hs' hs]
  -- the kept node is the node with other flags, hashed alike without the caches
  have hrel := hashRel_trans (hash_dropCache hen hs hn)
    (hash_dropCache_reflagged hen hs (hash_reflagged n force hashed cached h) force)
  rw [h] at hrel
  obtain ⟨⟨x, y⟩, hx, hax⟩ := FoldM.rel_some_left hrel
  rw [hx, Option.map_some]
  subst hhash
  rw [Node.Reflagged.hash_left hax]

/-- Out of commit mode `hash` keeps the cached hashes right: it caches the hashes it has just computed. The induction
is on the node, with the loop over a full node's children as in `hash_reflagged`. -/
theorem hash_hashOK (hs : Hasher) {n : Node} :
    ∀ {force hashed cached}, hs.hash encode keccak false n force = some (hashed, cached) →
      n.HashOK encode keccak force → cached.HashOK encode keccak force := by
  induction n with
  | empty => intro _ _ _ h; cases h
  | value w => intro _ _ _ h _; cases h; trivial
  | hash hh => intro _ _ _ h _; cases h; trivial
  | short k v f ih =>
    intro force hashed cached h hn
    have htop := fun hh => @hash_cache_right encode keccak hen hs _ _ _ force h hn hh
    simp only [Hasher.hash] at h
    split at h
    · rename_i r hr
      cases h
      rw [fromCache_false hr]
      exact hn
    · obtain ⟨ck, -, h⟩ := Option.bind_eq_some_iff.mp h
      split at h
      · -- a value is kept as it is
        cases h
        exact ⟨fun hh hf => htop hh (NodeFlag.setCache_hash hf), hn.2⟩
      · obtain ⟨⟨cv1, cv2⟩, hv, h⟩ := Option.bind_eq_some_iff.mp h
        cases h
        exact ⟨fun hh hf => htop hh (NodeFlag.setCache_hash hf), ih hv hn.2⟩
  | full c f ih =>
    intro force hashed cached h hn
    have htop := fun hh => @hash_cache_right encode keccak hen hs _ _ _ force h hn hh
    simp only [Hasher.hash] at h
    split at h
    · rename_i r hr
      cases h
      rw [fromCache_false hr]
      exact hn
    · obtain ⟨⟨coll, cc⟩, hloop, h⟩ := Option.bind_eq_some_iff.mp h
      cases h
      refine ⟨fun hh hf => htop hh (NodeFlag.setCache_hash hf), ?_⟩
      -- each child the loop visits is hashed, and the others are kept
      have hch := FoldM.foldlM_update_spec Fin.castSucc (fun j => c j = .empty)
        (fun _ x => x.HashOK encode keccak false) _
        (fun acc i acc' hstep => by
          split at hstep
          · rename_i he
            cases hstep
            exact .inl ⟨he, rfl⟩
          · obtain ⟨⟨hc, ccj⟩, hh, hstep⟩ := Option.bind_eq_some_iff.mp hstep
            cases hstep
            exact .inr ⟨ccj, ih _ hh (hn.2 _), rfl⟩) _ (c, c) (coll, cc) hloop
      intro j
      rcases hch j with ⟨heq, -⟩ | hj
      · rw [heq]
        exact hn.2 j
      · exact hj

end FlagBlind

/-! ## `insert` and `delete` cache no hash -/

/-- A new node caches no hash: its cached hashes are right when its children's are. -/
theorem hashOK_short_new {k : List UInt8} {x : Node} {cg : UInt16} {force : Bool}
    (hx : x.HashOK encode keccak false) : (Node.short k x (newFlag cg)).HashOK encode keccak force :=
  ⟨fun _ hf => (by cases hf), hx⟩

theorem hashOK_full_new {c : Fin 17 → Node} {cg : UInt16} {force : Bool} (hc : ∀ i, (c i).HashOK encode keccak false) :
    (Node.full c (newFlag cg)).HashOK encode keccak force :=
  ⟨fun _ hf => (by cases hf), hc⟩

section Insert

variable {db : List UInt8 → Option RawNode} {cg : UInt16} {pfx : List UInt8} {d : Bool} {nn : Node}

/-- What `insert` puts in an empty node keeps the cached hashes right. -/
theorem insert_empty_hashOK {key : List UInt8} {fuel : Nat} {value c : Node} (hv : value.HashOK encode keccak false)
    (h : insert db cg fuel .empty pfx key value = .ok (d, c)) : c.HashOK encode keccak false := by
  obtain ⟨-, rfl⟩ := insert_empty h
  split
  · exact hv
  · exact hashOK_short_new hv

/-- `insert` keeps the cached hashes right: the nodes it makes are new, and the others it leaves as they are. The
induction is on the fuel, along the key. -/
theorem insert_hashOK : ∀ fuel (n : Node) force pfx key value d nn, insert db cg fuel n pfx key value = .ok (d, nn) →
    n.NoHash → n.HashOK encode keccak force → value.HashOK encode keccak false → value.HashOK encode keccak force →
      nn.HashOK encode keccak force := by
  intro fuel
  induction fuel with
  | zero => intro _ _ _ _ _ _ _ h; cases h
  | succ fuel ih =>
    intro n force pfx key value d nn h hno hn hv hvf
    by_cases hnil : key = []
    · subst hnil
      rw [(insert_nil_cases h).1]
      exact hvf
    cases n with
    | empty =>
      obtain ⟨-, rfl⟩ := insert_empty h
      rw [if_neg hnil]
      exact hashOK_short_new hv
    | value w => exact absurd h (insert_value_ne hnil)
    | hash hh => exact absurd hno id
    | full c f =>
      obtain ⟨i, d', nn', -, hrec, ⟨-, -, rfl⟩ | ⟨-, -, rfl⟩⟩ := insert_full_cases hnil h
      · exact hn
      · exact hashOK_full_new (update_child (ih _ _ _ _ _ _ _ hrec (hno i) (hn.2 i) hv hv) hn.2)
    | short k v f =>
      by_cases hm : prefixLen key k = k.length
      · obtain ⟨d', nn', hrec, ⟨-, -, rfl⟩ | ⟨-, -, rfl⟩⟩ := insert_short_match hnil hm h
        · exact hn
        · exact hashOK_short_new (ih _ _ _ _ _ _ _ hrec hno hn.2 hv hv)
      · obtain ⟨ki, kk, c1, c2, d1, d2, -, -, h1, h2, -, hcase⟩ := insert_short_branch hnil hm h
        -- the branch is new, over the old child and the value
        have hB : ∀ force, (Node.full (Function.update (Function.update noChildren ki c1) kk c2)
            (newFlag cg)).HashOK encode keccak force := fun _ =>
          hashOK_full_new (update_child (insert_empty_hashOK hv h2)
            (update_child (insert_empty_hashOK hn.2 h1) fun _ => trivial))
        rcases hcase with ⟨-, rfl⟩ | ⟨-, rfl⟩
        · exact hB force
        · exact hashOK_short_new (hB false)

end Insert

section Delete

variable {db : List UInt8 → Option RawNode} {cg : UInt16} {pfx : List UInt8} {d : Bool} {nn : Node}

/-- The node a full node collapses to keeps the cached hashes right. -/
theorem Collapsed.hashOK {c : Fin 17 → Node} {force : Bool} (hc : Collapsed db cg pfx c nn) (hn : ∀ j, (c j).NoHash)
    (hall : ∀ j, (c j).HashOK encode keccak false) : nn.HashOK encode keccak force := by
  cases hc with
  | full _ => exact hashOK_full_new hall
  | single j _ _ _ => exact hashOK_short_new (hall j)
  | merge j ck cv fl _ _ hres =>
    rw [resolve_of_noHash (hn j)] at hres
    have hj := hall j
    rw [Except.ok.inj hres] at hj
    exact hashOK_short_new hj.2

/-- `delete` keeps the cached hashes right: the nodes it makes are new, and the others it leaves as they are. The
induction is on the fuel, along the key. -/
theorem delete_hashOK : ∀ fuel (n : Node) t force pfx key d nn, delete db cg fuel n pfx key = .ok (d, nn) →
    n.Shaped t → HexRest t key → n.HashOK encode keccak force → nn.HashOK encode keccak force := by
  intro fuel
  induction fuel with
  | zero => intro _ _ _ _ _ _ _ h; cases h
  | succ fuel ih =>
    intro n t force pfx key d nn h hs hkey hn
    cases n with
    | empty => rw [delete_empty] at h; cases h; trivial
    | value w => rw [delete_value] at h; cases h; trivial
    | hash hh => cases t <;> exact absurd hs id
    | short k v f =>
      cases t with
      | true => exact absurd hs id
      | false =>
      rcases delete_short_cases h with ⟨-, -, rfl⟩ | ⟨-, -, -, rfl⟩ |
        ⟨hm, -, d', child, hrec, ⟨-, -, rfl⟩ | ⟨-, -, ⟨-, rfl⟩ | ⟨ck, cv, fl, rfl, rfl⟩⟩⟩
      · exact hn
      · trivial
      · exact hn
      · exact hashOK_short_new
          (ih v _ false _ _ d' child hrec hs.2.1 (HexKey.rest_short hkey (take_of_prefixLen hm)) hn.2)
      · -- the short child merged in brings its own child
        exact hashOK_short_new
          (ih v _ false _ _ d' (.short ck cv fl) hrec hs.2.1 (HexKey.rest_short hkey (take_of_prefixLen hm)) hn.2).2
    | full c f =>
      cases t with
      | true => exact absurd hs id
      | false =>
      obtain ⟨i, d', nn', hi, hrec, ⟨-, -, rfl⟩ | ⟨-, -, hcol⟩⟩ := delete_full_collapse h
      · exact hn
      · have hrest := HexKey.rest_full hkey hi
        have hc := ih (c i) _ false _ _ d' nn' hrec (hs i) hrest (hn.2 i)
        have hsh := delete_shaped _ _ _ _ _ _ _ hrec (hs i) hrest
        exact hcol.hashOK (update_child hsh.noHash fun j => (hs j).noHash) (update_child hc hn.2)

end Delete

end Hash

end Etherzero.Trie
