import Mathlib
import Etherzero.Lemmas.TrieCache

set_option linter.dupNamespace false

/-!
# The cache generation wraps

`cachegen` is a `uint16` that every `Commit` increments. After 65535 commits a trie is at generation 65535, and the
nodes it then builds carry that generation. The next `Commit` keeps them in memory and wraps `cachegen` to 0. A node
built after that has generation 0, and it can be the parent of a node of generation 65535. `checkCacheInvariant`
then reports a violation, and the claim that a node's generation is at most its parent's fails.

The other half of the invariant holds in every run: a dirty node has a dirty parent, so a node that is not dirty has
no dirty node under it, and the hasher unloads only such nodes. With fewer commits than it takes to wrap `cachegen`,
the generation order holds as well.
-/

namespace Etherzero.Trie

/-- In every run from `New`, dirty nodes stay under dirty parents, so a node that `Commit` may unload has no dirty node
under it: unloading discards no uncommitted change. -/
theorem run_unloads_only_clean (encode : Node → List UInt8) (keccak : List UInt8 → List UInt8)
    (db : List UInt8 → Option RawNode) (root : List UInt8) (fuel : Nat) (ops : List Op) {t t' : Trie}
    (hnew : newTrie db root = .ok t) (hrun : t.run encode keccak fuel ops = some t') :
    t'.root.DirtyOK true ∧ ∀ n : Node, n.Sub t'.root → ∀ g l, n.canUnload g l = true →
      ∀ m : Node, m.Sub n → m.isDirty = false := by
  obtain ⟨⟨-, hd⟩, hw, -⟩ := newTrie_inv hnew
  have hi := Trie.run_dirtyOK ops t t' hrun ⟨hd, hw⟩
  refine ⟨hi.1, fun n hn g l hu => ?_⟩
  obtain ⟨pd, hpd⟩ := hi.1.sub hn
  exact hpd.unload_clean hu

/-- In a run from `New` with at most 65535 commits, `cachegen` does not wrap and the whole cache invariant holds. -/
theorem run_cacheInv_of_few_commits (encode : Node → List UInt8) (keccak : List UInt8 → List UInt8)
    (db : List UInt8 → Option RawNode) (root : List UInt8) (fuel : Nat) (ops : List Op) {t t' : Trie}
    (hnew : newTrie db root = .ok t) (hrun : t.run encode keccak fuel ops = some t')
    (hc : (ops.filter Op.isCommit).length ≤ 65535) : t'.CacheInv := by
  obtain ⟨⟨hg, hd⟩, hw, h0⟩ := newTrie_inv hnew
  refine ⟨Trie.run_genOK ops t t' hrun hg ?_, (Trie.run_dirtyOK ops t t' hrun ⟨hd, hw⟩).1⟩
  rw [h0]
  simpa using hc

/-- Three keys under different first nibbles: two written, a commit, and the third written. -/
def wrapOps (db : List UInt8 → Option RawNode) : List Op :=
  [.tryUpdate db [0x00] [1], .tryUpdate db [0x10] [1], .commit, .tryUpdate db [0x20] [1]]

/-- The empty trie that `New(emptyRoot, db)` makes holds the cache invariant. After 65535 commits, the two keys and a
commit that wraps `cachegen` to 0, writing a third key makes a root of generation 0 whose first child is of generation
65535. This holds whatever the encoding, the hash, the database and the fuel from 4 up. -/
theorem cache_generation_wraps (encode : Node → List UInt8) (keccak : List UInt8 → List UInt8)
    (db : List UInt8 → Option RawNode) (f : Nat) :
    newTrie db emptyRoot = .ok ⟨.empty, 0, 0⟩ ∧ (⟨.empty, 0, 0⟩ : Trie).CacheInv ∧
      ∃ t, (⟨.empty, 0, 0⟩ : Trie).run encode keccak (f + 4) (List.replicate 65535 .commit ++ wrapOps db) = some t ∧
        ¬ t.root.GenOK t.cachegen.toNat := by
  refine ⟨rfl, ⟨trivial, trivial⟩, ?_⟩
  have hwrap : (0 : UInt16) + UInt16.ofNat 65535 = 65535 := by decide
  rw [Trie.run_append, Trie.run_commits_empty, hwrap, Option.bind_some]
  refine ⟨_, rfl, fun h => ?_⟩
  -- the root's first child kept the generation it was built in
  have hchild := (h.2 0).1
  simp [NodeFlag.setCache, newFlag] at hchild

end Etherzero.Trie
