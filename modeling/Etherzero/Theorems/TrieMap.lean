import Mathlib
import Etherzero.Lemmas.TrieTotal

set_option linter.dupNamespace false

/-!
# The trie in memory implements a map

A trie whose nodes are all in memory holds a map from keys to values: `Trie.Represents t M` says that its root has the
shape that `insert` and `delete` build and reads `M key` under the hex key of every key. The empty trie that `New`
makes for `emptyRoot` holds the empty map. Between commits, every operation keeps the trie a representation of the map
the operation makes of the old one (`step_represents`, `run_represents`): `TryUpdate` puts the value under its key, or
takes the key out for an empty value, `TryDelete` takes the key out, and `TryGet`, `Hash` and `SetCacheLimit` leave the
map as it is. `TryGet` returns the map's value (`tryGet_represents`), and with fuel beyond the longest hex key no
operation of such a run panics (`run_total`).

A `Commit` unloads nodes into hashes and stores them in the database, which the model does not write, so a run that
commits is outside these results.
-/

namespace Etherzero.Trie

/-! ## Keys -/

theorem keybytesToHex_injective : Function.Injective keybytesToHex := by
  intro a b h
  have ha := hexToKeybytes_keybytesToHex a
  rw [h, hexToKeybytes_keybytesToHex] at ha
  exact (Option.some.inj ha).symm

theorem length_keybytesToHex (key : List UInt8) : (keybytesToHex key).length = 2 * key.length + 1 := by
  rw [keybytesToHex_eq, List.length_append, length_keyNibbles]
  rfl

/-- The hex key of one key starts that of another only when the keys are the same. -/
theorem take_keybytesToHex {a b : List UInt8} :
    (keybytesToHex b).take (keybytesToHex a).length = keybytesToHex a ↔ b = a := by
  constructor
  · intro h
    exact keybytesToHex_injective (HexKey.eq_of_take (hexKey_keybytesToHex a) (hexKey_keybytesToHex b) h).symm
  · rintro rfl
    exact List.take_length

/-! ## Tries that hold a map -/

/-- The node is in memory, of the shape `insert` and `delete` build, and reads `M key` under the hex key of every
key. -/
def Node.Represents (n : Node) (M : List UInt8 → Option (List UInt8)) : Prop :=
  n.Shaped false ∧ ∀ key, n.get (keybytesToHex key) = some (M key)

/-- A trie whose root holds the map `M`. -/
def Trie.Represents (t : Trie) (M : List UInt8 → Option (List UInt8)) : Prop := t.root.Represents M

/-- What an operation does to the map: `TryUpdate` puts the value under the key, or takes the key out when the value
is empty; `TryDelete` takes the key out; the other operations leave the map as it is. -/
def Op.applyMap : Op → (List UInt8 → Option (List UInt8)) → List UInt8 → Option (List UInt8)
  | .tryUpdate _ key value, M => Function.update M key (if value = [] then none else some value)
  | .tryDelete _ key, M => Function.update M key none
  | _, M => M

/-- The map a run of operations makes of `M`. -/
def Op.runMap (ops : List Op) (M : List UInt8 → Option (List UInt8)) : List UInt8 → Option (List UInt8) :=
  ops.foldl (fun M op => op.applyMap M) M

section Ops

variable {db : List UInt8 → Option RawNode} {cg : UInt16} {fuel : Nat} {M : List UInt8 → Option (List UInt8)}
  {n nn : Node} {pfx : List UInt8} {d : Bool}

/-- What `insert` makes of a node that holds `M`, for a key and a value, holds `M` with the value under the key. -/
theorem Node.Represents.insert (hr : n.Represents M) {key value : List UInt8}
    (h : insert db cg fuel n pfx (keybytesToHex key) (.value value) = .ok (d, nn)) :
    nn.Represents (Function.update M key (some value)) := by
  have hk := hexKey_keybytesToHex key
  refine ⟨insert_shaped value _ _ _ _ _ _ _ h hr.1 hk, fun key' => ?_⟩
  have hk' := hexKey_keybytesToHex key'
  rw [(insert_get _ _ _ _ _ _ _ h hr.1.noHash).2 _ hk'.le fun htake => hk'.eq_of_take hk htake, Node.graft]
  by_cases hkey : key' = key
  · subst hkey
    rw [if_pos (take_keybytesToHex.mpr rfl), Function.update_self, Node.get_value]
  · rw [if_neg (mt take_keybytesToHex.mp hkey), hr.2, Function.update_of_ne hkey]

/-- What `delete` makes of a node that holds `M`, for a key, holds `M` without the key. -/
theorem Node.Represents.delete (hr : n.Represents M) {key : List UInt8}
    (h : delete db cg fuel n pfx (keybytesToHex key) = .ok (d, nn)) : nn.Represents (Function.update M key none) := by
  have hk := hexKey_keybytesToHex key
  refine ⟨delete_shaped _ _ _ _ _ _ _ h hr.1 hk, fun key' => ?_⟩
  rw [(delete_get _ _ _ _ _ _ _ h hr.1 hk).2 _ (hexKey_keybytesToHex key'), Node.graft]
  by_cases hkey : key' = key
  · subst hkey
    rw [if_pos (take_keybytesToHex.mpr rfl), Function.update_self, Node.get_empty]
  · rw [if_neg (mt take_keybytesToHex.mp hkey), hr.2, Function.update_of_ne hkey]

/-- A node with other flags holds the same map. -/
theorem Node.Represents.reflagged {m : Node} (hr : n.Represents M) (h : n.Reflagged m) : m.Represents M :=
  ⟨h.shaped hr.1, fun key => by rw [h.get, hr.2]⟩

end Ops

/-! ## Operations -/

/-- An operation for which the fuel suffices: a key whose hex key is shorter than the fuel, and no commit. -/
def Op.Fits (fuel : Nat) : Op → Prop
  | .tryGet _ key | .tryDelete _ key | .tryUpdate _ key _ => 2 * key.length + 1 < fuel
  | .hash | .setCacheLimit _ => True
  | .commit => False

theorem Op.Fits.isCommit {fuel : Nat} {op : Op} (h : op.Fits fuel) : op.isCommit = false := by
  cases op with
  | commit => exact absurd h id
  | _ => rfl

/-- The empty trie holds the empty map. -/
theorem Trie.represents_empty (g l : UInt16) : (⟨.empty, g, l⟩ : Trie).Represents fun _ => none :=
  ⟨trivial, fun _ => rfl⟩

/-- `New` makes the empty trie for `emptyRoot`, whatever the database holds. -/
theorem newTrie_emptyRoot (db : List UInt8 → Option RawNode) : newTrie db emptyRoot = .ok ⟨.empty, 0, 0⟩ := by
  rw [newTrie, if_pos (Or.inr rfl)]

section Step

variable {encode : Node → List UInt8} {keccak : List UInt8 → List UInt8} {fuel : Nat}
  {M : List UInt8 → Option (List UInt8)}

theorem Trie.afterOp_ok (t : Trie) (root : Node) : t.afterOp (.ok root) = some { t with root := root } := rfl

theorem Trie.afterOp_deep (t : Trie) : t.afterOp (.error .deep) = none := rfl

/-- What `hashRoot` keeps in memory out of commit mode is the root with other flags. -/
theorem Trie.hashRoot_reflagged {t : Trie} {hashed cached : Node}
    (h : t.hashRoot encode keccak false = some (hashed, cached)) : t.root.Reflagged cached := by
  unfold Trie.hashRoot at h
  split at h
  · rename_i hroot
    cases h
    rw [hroot]
    trivial
  · exact hash_reflagged _ _ _ _ h

/-- Every operation but a commit keeps the trie a representation of the map the operation makes: an update or a
delete never fails on a missing node there, and returns, or runs out of fuel, which panics. -/
theorem Trie.step_represents {t t' : Trie} {op : Op} (hr : t.Represents M) (hc : op.isCommit = false)
    (h : t.step encode keccak fuel op = some t') : t'.Represents (op.applyMap M) := by
  cases op with
  | tryGet db key =>
    -- nothing is resolved in memory, so the root stays
    refine (Trie.afterOp_keeps (P := fun n => n.Represents M) h hr fun root hroot => ?_).1
    obtain ⟨⟨v, newroot, didResolve⟩, hget, rfl⟩ := except_map_eq_ok.mp hroot
    rw [tryGet_noHash _ _ _ _ _ _ _ hget hr.1.noHash]
    exact hr
  | tryUpdate db key value =>
    simp only [Trie.step] at h
    split at h
    · rename_i hlen
      have hne : value ≠ [] := fun hv => hlen (by rw [hv]; rfl)
      rcases @insert_total db t.cachegen value fuel t.root false [] (keybytesToHex key) hr.1
        (hexKey_keybytesToHex key) with ⟨d, nn, hins⟩ | ⟨hins, -⟩
      · rw [hins, Except.map, Trie.afterOp_ok, Option.some_inj] at h
        subst h
        simp only [Op.applyMap, if_neg hne]
        exact hr.insert hins
      · rw [hins, Except.map, Trie.afterOp_deep] at h
        cases h
    · rename_i hlen
      have hnil : value = [] := List.length_eq_zero_iff.mp (not_not.mp hlen)
      rcases @delete_total db t.cachegen fuel t.root false [] (keybytesToHex key) hr.1
        (hexKey_keybytesToHex key) with ⟨d, nn, hdel⟩ | ⟨hdel, -⟩
      · rw [hdel, Except.map, Trie.afterOp_ok, Option.some_inj] at h
        subst h
        simp only [Op.applyMap, if_pos hnil]
        exact hr.delete hdel
      · rw [hdel, Except.map, Trie.afterOp_deep] at h
        cases h
  | tryDelete db key =>
    rcases @delete_total db t.cachegen fuel t.root false [] (keybytesToHex key) hr.1
      (hexKey_keybytesToHex key) with ⟨d, nn, hdel⟩ | ⟨hdel, -⟩
    · simp only [Trie.step] at h
      rw [hdel, Except.map, Trie.afterOp_ok, Option.some_inj] at h
      subst h
      exact hr.delete hdel
    · simp only [Trie.step] at h
      rw [hdel, Except.map, Trie.afterOp_deep] at h
      cases h
  | hash =>
    obtain ⟨⟨hashed, cached⟩, hh, rfl⟩ := Option.map_eq_some_iff.mp h
    exact hr.reflagged (Trie.hashRoot_reflagged hh)
  | commit => cases hc
  | setCacheLimit l =>
    cases h
    exact hr

/-- A run without a commit keeps the trie a representation of the map the run makes. The induction is on the run,
one operation at a time. -/
theorem Trie.represents_of_run : ∀ (ops : List Op) (t t' : Trie) (M : List UInt8 → Option (List UInt8)),
    t.Represents M → (∀ op ∈ ops, op.isCommit = false) → t.run encode keccak fuel ops = some t' →
    t'.Represents (Op.runMap ops M) := by
  intro ops
  induction ops with
  | nil => intro t t' M hr _ h; cases h; exact hr
  | cons op ops ih =>
    intro t t' M hr hc h
    obtain ⟨t1, h1, h⟩ := Option.bind_eq_some_iff.mp h
    exact ih t1 t' _ (Trie.step_represents hr (hc op List.mem_cons_self) h1)
      (fun op' hop' => hc op' (List.mem_cons_of_mem op hop')) h

/-- `TryGet` on a trie that holds `M` returns `M key`, resolves nothing and changes nothing, given fuel beyond the
key's hex key. -/
theorem Trie.tryGet_represents {t : Trie} (hr : t.Represents M) (db : List UInt8 → Option RawNode) (key : List UInt8)
    (hf : 2 * key.length + 1 < fuel) : tryGet db t.cachegen fuel t.root (keybytesToHex key) 0 = .ok (M key, t.root, false) :=
  tryGet_of_get fuel t.root false (keybytesToHex key) 0 (M key) hr.1 (by rw [List.drop_zero]; exact hexKey_keybytesToHex key)
    (by rw [length_keybytesToHex]; omega) (by rw [List.drop_zero]; exact hr.2 key)

theorem tryGet_represents_empty :
    tryGet (fun _ => none) 0 4 Node.empty (keybytesToHex [1]) 0 = .ok (none, .empty, false) :=
  Trie.tryGet_represents (Trie.represents_empty 0 0) _ [1] (by decide)

/-- On a trie that holds a map, an operation for which the fuel suffices does not panic. -/
theorem Trie.step_total {t : Trie} {op : Op} (hr : t.Represents M) (hop : op.Fits fuel) :
    ∃ t', t.step encode keccak fuel op = some t' := by
  cases op with
  | tryGet db key =>
    simp only [Trie.step]
    rw [Trie.tryGet_represents hr db key hop]
    exact ⟨_, rfl⟩
  | tryUpdate db key value =>
    have hlen : (keybytesToHex key).length < fuel := by rw [length_keybytesToHex]; exact hop
    simp only [Trie.step]
    split
    · rcases @insert_total db t.cachegen value fuel t.root false [] (keybytesToHex key) hr.1
        (hexKey_keybytesToHex key) with ⟨d, nn, hins⟩ | ⟨-, hle⟩
      · rw [hins]
        exact ⟨_, rfl⟩
      · omega
    · rcases @delete_total db t.cachegen fuel t.root false [] (keybytesToHex key) hr.1
        (hexKey_keybytesToHex key) with ⟨d, nn, hdel⟩ | ⟨-, hle⟩
      · rw [hdel]
        exact ⟨_, rfl⟩
      · omega
  | tryDelete db key =>
    have hlen : (keybytesToHex key).length < fuel := by rw [length_keybytesToHex]; exact hop
    rcases @delete_total db t.cachegen fuel t.root false [] (keybytesToHex key) hr.1
      (hexKey_keybytesToHex key) with ⟨d, nn, hdel⟩ | ⟨-, hle⟩
    · simp only [Trie.step]
      rw [hdel]
      exact ⟨_, rfl⟩
    · omega
  | hash =>
    obtain ⟨r, hh⟩ := @Trie.hashRoot_total encode keccak _ hr.1
    simp only [Trie.step, hh]
    exact ⟨_, rfl⟩
  | commit => exact absurd hop id
  | setCacheLimit l => exact ⟨_, rfl⟩

/-- A run of operations for which the fuel suffices, from a trie that holds a map, returns a trie that holds the
map the run makes. The induction is on the run. -/
theorem Trie.exists_run_of_fits : ∀ (ops : List Op) (t : Trie) (M : List UInt8 → Option (List UInt8)), t.Represents M →
    (∀ op ∈ ops, op.Fits fuel) → ∃ t', t.run encode keccak fuel ops = some t' ∧ t'.Represents (Op.runMap ops M) := by
  intro ops
  induction ops with
  | nil => intro t M hr _; exact ⟨t, rfl, hr⟩
  | cons op ops ih =>
    intro t M hr hf
    have hop := hf op List.mem_cons_self
    obtain ⟨t1, h1⟩ := @Trie.step_total encode keccak _ _ _ _ hr hop
    obtain ⟨t', h', hr'⟩ := ih t1 _ (Trie.step_represents hr hop.isCommit h1)
      fun op' hop' => hf op' (List.mem_cons_of_mem op hop')
    exact ⟨t', by rw [Trie.run, h1, Option.bind_some]; exact h', hr'⟩

/-- From a trie that holds `M`, every run of gets, updates, deletes, hashes and changes of the cache limit with fuel
beyond each key's hex key returns, and the trie it leaves holds the map the run makes of `M`. -/
theorem Trie.run_total (ops : List Op) (t : Trie) (M : List UInt8 → Option (List UInt8)) (hr : t.Represents M)
    (hf : ∀ op ∈ ops, op.Fits fuel) : ∃ t', t.run encode keccak fuel ops = some t' ∧ t'.Represents (Op.runMap ops M) :=
  Trie.exists_run_of_fits ops t M hr hf

theorem run_total_update_hash :
    ∃ t', (⟨.empty, 0, 0⟩ : Trie).run (fun _ => []) (fun _ => []) 4 [.tryUpdate (fun _ => none) [1] [2], .hash] =
      some t' ∧ t'.Represents (Op.runMap [.tryUpdate (fun _ => none) [1] [2], .hash] fun _ => none) :=
  Trie.run_total _ _ _ (Trie.represents_empty 0 0) (by simp [Op.Fits])

/-- Read your writes: from the trie `New` makes for `emptyRoot`, every run of gets, updates, deletes, hashes and
changes of the cache limit with fuel beyond each key's hex key returns. After it, `TryGet` of every key short enough
for the fuel returns the value the run last stored under the key, `nil` where it deleted the key last or never stored
it, and resolves nothing. -/
theorem newTrie_read_your_writes (db : List UInt8 → Option RawNode) {ops : List Op}
    (hf : ∀ op ∈ ops, op.Fits fuel) :
    ∃ t t', newTrie db emptyRoot = .ok t ∧ t.run encode keccak fuel ops = some t' ∧
      ∀ (db' : List UInt8 → Option RawNode) (key : List UInt8), 2 * key.length + 1 < fuel →
        tryGet db' t'.cachegen fuel t'.root (keybytesToHex key) 0 =
          .ok (Op.runMap ops (fun _ => none) key, t'.root, false) := by
  obtain ⟨t', hrun, hr⟩ := @Trie.exists_run_of_fits encode keccak fuel ops _ _ (Trie.represents_empty 0 0) hf
  exact ⟨_, t', newTrie_emptyRoot db, hrun, fun db' key hk => Trie.tryGet_represents hr db' key hk⟩

theorem read_your_writes_update_delete :
    ∃ t t', newTrie (fun _ => none) emptyRoot = .ok t ∧
      t.run (fun _ => []) (fun _ => []) 6
        [.tryUpdate (fun _ => none) [1] [2], .tryUpdate (fun _ => none) [2] [3], .tryDelete (fun _ => none) [1]] =
        some t' ∧
      ∀ (db' : List UInt8 → Option RawNode) (key : List UInt8), 2 * key.length + 1 < 6 →
        tryGet db' t'.cachegen 6 t'.root (keybytesToHex key) 0 =
          .ok (Op.runMap [.tryUpdate (fun _ => none) [1] [2], .tryUpdate (fun _ => none) [2] [3],
            .tryDelete (fun _ => none) [1]] (fun _ => none) key, t'.root, false) :=
  newTrie_read_your_writes (fun _ => none) (by simp [Op.Fits])

end Step

end Etherzero.Trie
