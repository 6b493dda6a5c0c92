import Mathlib
import Etherzero.Trie.Trie

/-!
# What a commit writes to the database (trie/database.go, trie/hasher.go, trie/trie.go)

In commit mode `hash` is given the database, and `store` inserts every node it replaces by a hash into it:
`db.insert(hash, blob, n)` for the collapsed node `n`, which keeps the node as `simplifyNode` leaves it, without flags
and with its keys in compact form, unless the hash is there already. `Hasher.hashDb` is `hash` with that database:
what `hash` returns in commit mode, and the inserts `store` makes, each a hash and a collapsed node, in the order Go
makes them. Nothing in `hash` reads the database, so the inserts can be made after it, one after another
(`Database.insertAll`). `Trie.commit` is `Commit` with these inserts.

The dirty cache's reference counts, flush list and sizes, the clean cache, the blob and the `onleaf` callbacks are not
modelled.
-/

set_option linter.dupNamespace false

namespace Etherzero.Trie

/-- `simplifyNode(n)`: the node without its flags, as the database keeps it. A nil child of a full node stays nil;
`none` where Go panics, on any other nil node. -/
def simplifyNode : Node → Option RawNode
  | .short k v _ => do
    let v ← simplifyNode v
    pure (.short k v)
  | .full c _ => do
    let children ← (List.finRange 17).foldlM (fun (acc : Fin 17 → RawNode) i =>
      match c i with
      | .empty => pure acc
      | _ => do
        let s ← simplifyNode (c i)
        pure (Function.update acc i s)) (fun _ => .empty)
    pure (.full children)
  | .value v => some (.value v)
  | .hash h => some (.hash h)
  | .empty => none

/-- `insert(hash, blob, node)` into the dirty cache: nothing when the hash is there already, and otherwise the node as
`simplifyNode` leaves it. `none` where `simplifyNode` panics. -/
def Database.insert (db : List UInt8 → Option RawNode) (hash : List UInt8) (node : Node) :
    Option (List UInt8 → Option RawNode) :=
  if (db hash).isSome then some db
  else (simplifyNode node).map fun raw => Function.update db hash (some raw)

/-- The inserts of a commit, one after another. -/
def Database.insertAll (db : List UInt8 → Option RawNode) (writes : List (List UInt8 × Node)) :
    Option (List UInt8 → Option RawNode) :=
  writes.foldlM (fun db w => Database.insert db w.1 w.2) db

section Hash

variable (encode : Node → List UInt8) (keccak : List UInt8 → List UInt8)

/-- `store(n, db, force)` with a database: what `store` returns, and the insert it makes, the hash and the collapsed
node, when it replaces the node by its hash. -/
def storeDb (n : Node) (force : Bool) : Node × List (List UInt8 × Node) :=
  match n with
  | .empty | .hash _ => (n, [])
  | _ =>
    let tmp := encode n
    if tmp.length < 32 ∧ force = false then (n, [])
    else
      let hash := match n.cache with
        | some (some hash, _) => hash
        | _ => keccak tmp
      (.hash hash, [(hash, n)])

/-- `hash(n, db, force)` with a database, in commit mode: the collapsed node or its hash, the node to keep in memory,
and the inserts `store` makes on the way, children's first. `none` where Go panics on a nil node. -/
def Hasher.hashDb (h : Hasher) : Node → Bool → Option (Node × Node × List (List UInt8 × Node))
  | .empty, _ => none
  | .short k v f, force =>
    match h.fromCache true (.short k v f) f with
    | some (hashed, cached) => some (hashed, cached, [])
    | none => do
      let ck ← hexToCompact k
      let (collapsedVal, cachedVal, w) ← match v with
        | .value _ => some (v, v, [])
        | _ => h.hashDb v false
      let (hashed, w') := storeDb encode keccak (.short ck collapsedVal f) force
      some (hashed, .short k cachedVal (f.setCache hashed true), w ++ w')
  | .full c f, force =>
    match h.fromCache true (.full c f) f with
    | some (hashed, cached) => some (hashed, cached, [])
    | none => do
      let (collapsed, cached, w) ← (List.finRange 16).foldlM
        (fun (acc : (Fin 17 → Node) × (Fin 17 → Node) × List (List UInt8 × Node)) i =>
          match c i.castSucc with
          | .empty => some acc
          | _ => do
            let (hc, cc, wc) ← h.hashDb (c i.castSucc) false
            some (Function.update acc.1 i.castSucc hc, Function.update acc.2.1 i.castSucc cc, acc.2.2 ++ wc))
        (c, c, [])
      let (hashed, w') := storeDb encode keccak (.full collapsed f) force
      some (hashed, .full cached (f.setCache hashed true), w ++ w')
  | .hash hash, force => some ((storeDb encode keccak (.hash hash) force).1, .hash hash, [])
  | .value v, force =>
    let (hashed, w) := storeDb encode keccak (.value v) force
    some (hashed, .value v, w)

end Hash

/-- `Commit(onleaf)`: the root hash, the trie after it, and the inserts into the database on the way. A root that
`hash` does not leave as a hash node fails Go's type assertion, a panic. -/
def Trie.commit (encode : Node → List UInt8) (keccak : List UInt8 → List UInt8) (t : Trie) :
    Option (List UInt8 × Trie × List (List UInt8 × Node)) :=
  match t.root with
  | .empty => some (emptyRoot, { t with cachegen := t.cachegen + 1 }, [])
  | root => do
    let (hashed, cached, w) ← (Hasher.mk t.cachegen t.cachelimit).hashDb encode keccak root true
    match hashed with
    | .hash h => some (h, { t with root := cached, cachegen := t.cachegen + 1 }, w)
    | _ => none

end Etherzero.Trie
