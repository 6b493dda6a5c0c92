import Mathlib
import Etherzero.Trie.Encoding

/-!
# The Merkle Patricia trie in memory (trie/node.go, trie/trie.go, trie/hasher.go)

A `Trie` holds a tree of nodes. Parts of it not yet loaded are `hashNode`s, resolved from the database when an
operation walks into them. Each `fullNode` and `shortNode` carries a `nodeFlag`: its cached hash, the cache
generation it was last touched in, and whether it has changes not yet in the database. `TryGet`, `TryUpdate` and
`TryDelete` rebuild the path they walk. `Hash` caches hashes. `Commit` stores the dirty nodes, unloads clean nodes
older than `cachegen - cachelimit`, and then increments `cachegen`, a `uint16`.

The database is an input to each operation: a function from a hash to the node stored under it, in the flagless form
of `simplifyNode` with keys in compact form. What `Commit` writes to it, the `onleaf` callbacks and the metrics are
not modelled. The RLP encoding of a collapsed node and Keccak256 are parameters `encode` and `keccak`, so every
result holds for any of them.

Go panics become `TrieError.panic`: a nil node where a method is called on it, an index out of range, a failed type
assertion. The recursions that resolve nodes run on fuel; `TrieError.deep` is a walk deeper than the fuel. With
enough fuel the model computes what Go computes.
-/

set_option linter.dupNamespace false

namespace Etherzero.Trie

/-- `nodeFlag`. -/
structure NodeFlag where
  hash : Option (List UInt8)
  gen : UInt16
  dirty : Bool
  deriving DecidableEq, Repr

/-- A trie `node`; `empty` is Go's nil. -/
inductive Node where
  | empty
  | full (children : Fin 17 → Node) (flags : NodeFlag)
  | short (key : List UInt8) (val : Node) (flags : NodeFlag)
  | hash (h : List UInt8)
  | value (v : List UInt8)

/-- A node as `simplifyNode` stores it in the database: no flags, and keys in compact form. -/
inductive RawNode where
  | empty
  | full (children : Fin 17 → RawNode)
  | short (key : List UInt8) (val : RawNode)
  | hash (h : List UInt8)
  | value (v : List UInt8)

/-- The errors of the trie's operations. -/
inductive TrieError where
  /-- `MissingNodeError{NodeHash, Path}` -/
  | missingNode (nodeHash path : List UInt8)
  /-- a Go panic -/
  | panic
  /-- deeper than the fuel -/
  | deep
  deriving DecidableEq, Repr

/-- `emptyRoot`, the hash of the empty trie. -/
def emptyRoot : List UInt8 :=
  [0x56, 0xe8, 0x1f, 0x17, 0x1b, 0xcc, 0x55, 0xa6, 0xff, 0x83, 0x45, 0xe6, 0x92, 0xc0, 0xf8, 0x6e,
    0x5b, 0x48, 0xe0, 0x1b, 0x99, 0x6c, 0xad, 0xc0, 0x01, 0x62, 0x2f, 0xb5, 0xe3, 0x63, 0xb4, 0x21]

/-- `canUnload` of a `nodeFlag`, in `uint16` arithmetic. -/
def NodeFlag.canUnload (f : NodeFlag) (cachegen cachelimit : UInt16) : Bool :=
  !f.dirty && cachegen - f.gen >= cachelimit

/-- `canUnload`: hash and value nodes are never unloaded. -/
def Node.canUnload (n : Node) (cachegen cachelimit : UInt16) : Bool :=
  match n with
  | .full _ f | .short _ _ f => f.canUnload cachegen cachelimit
  | _ => false

/-- `cache()`: the cached hash and the dirty flag. Hash and value nodes have no hash and count as dirty. `none` for
a nil node, where Go panics. -/
def Node.cache : Node → Option (Option (List UInt8) × Bool)
  | .full _ f | .short _ _ f => some (f.hash, f.dirty)
  | .hash _ | .value _ => some (none, true)
  | .empty => none

/-- The children of a new `fullNode`, all nil. -/
def noChildren : Fin 17 → Node := fun _ => .empty

/-- `key[i]` as an index of a `fullNode`'s children; `none` where Go panics: past the key, or 17 and above. -/
def childIndex (key : List UInt8) (i : Nat) : Option (Fin 17) :=
  match key[i]? with
  | some b => if h : b.toNat < 17 then some ⟨b.toNat, h⟩ else none
  | none => none

/-- `prefixLen(a, b)`: the length of the common prefix. -/
def prefixLen : List UInt8 → List UInt8 → Nat
  | x :: a, y :: b => if x = y then prefixLen a b + 1 else 0
  | _, _ => 0

/-- `expandNode(hash, n, cachegen)`: the stored node in memory form, with `hash` cached at its top, `cachegen` as its
generation, and clean. `none` where Go panics, on a nil child of a short node. -/
def expandNode (hash : Option (List UInt8)) (cachegen : UInt16) : RawNode → Option Node
  | .short key val => do
    let key ← compactToHex key
    let val ← expandNode none cachegen val
    pure (.short key val ⟨hash, cachegen, false⟩)
  | .full children => do
    let children ← (List.finRange 17).foldlM (fun (acc : Fin 17 → Node) i =>
      match children i with
      | .empty => pure acc
      | _ => do
        let c ← expandNode none cachegen (children i)
        pure (Function.update acc i c)) noChildren
    pure (.full children ⟨hash, cachegen, false⟩)
  | .hash h => some (.hash h)
  | .value v => some (.value v)
  | .empty => none

section Resolve

variable (db : List UInt8 → Option RawNode) (cachegen : UInt16)

/-- `resolveHash(n, prefix)`: the node the database holds under the hash `n`, expanded at `cachegen`. -/
def resolveHash (n pfx : List UInt8) : Except TrieError Node :=
  match db n with
  | none => .error (.missingNode n pfx)
  | some raw =>
    match expandNode (some n) cachegen raw with
    | some node => .ok node
    | none => .error .panic

/-- `resolve(n, prefix)`: a hash node resolved, any other node as it is. -/
def resolve (n : Node) (pfx : List UInt8) : Except TrieError Node :=
  match n with
  | .hash h => resolveHash db cachegen h pfx
  | _ => .ok n

/-- `newFlag()`: a new node is dirty, of the current generation. -/
def newFlag : NodeFlag := ⟨none, cachegen, true⟩

/-- `tryGet(origNode, key, pos)`: the value, the node to put in `origNode`'s place, and whether a node was resolved
on the way. Each node on a path that resolved is copied with the current generation. -/
def tryGet : Nat → Node → List UInt8 → Nat → Except TrieError (Option (List UInt8) × Node × Bool)
  | 0, _, _, _ => .error .deep
  | fuel + 1, n, key, pos =>
    match n with
    | .empty => .ok (none, .empty, false)
    | .value v => .ok (some v, .value v, false)
    | .short k v f =>
      if (key.length : Int) - pos < k.length ∨ k ≠ (key.drop pos).take k.length then .ok (none, n, false)
      else do
        let (value, newnode, didResolve) ← tryGet fuel v key (pos + k.length)
        if didResolve then pure (value, .short k newnode { f with gen := cachegen }, true)
        else pure (value, n, false)
    | .full c f =>
      match childIndex key pos with
      | none => .error .panic
      | some i => do
        let (value, newnode, didResolve) ← tryGet fuel (c i) key (pos + 1)
        if didResolve then pure (value, .full (Function.update c i newnode) { f with gen := cachegen }, true)
        else pure (value, n, false)
    | .hash h => do
      let child ← resolveHash db cachegen h (key.take pos)
      let (value, newnode, _) ← tryGet fuel child key pos
      pure (value, newnode, true)

/-- `insert(n, prefix, key, value)`: whether the trie changed, and the node to put in `n`'s place. -/
def insert : Nat → Node → List UInt8 → List UInt8 → Node → Except TrieError (Bool × Node)
  | 0, _, _, _, _ => .error .deep
  | fuel + 1, n, pfx, key, value =>
    if key.length = 0 then
      match n with
      | .value v =>
        match value with
        | .value v' => .ok (v != v', value)
        | _ => .error .panic
      | _ => .ok (true, value)
    else
      match n with
      | .short k v _ =>
        let matchlen := prefixLen key k
        if matchlen = k.length then do
          -- the whole key of the short node matches: only its value changes
          let (dirty, nn) ← insert fuel v (pfx ++ key.take matchlen) (key.drop matchlen) value
          if !dirty then pure (false, n) else pure (true, .short k nn (newFlag cachegen))
        else do
          -- branch out where the keys differ
          let some ki := childIndex k matchlen | .error .panic
          let (_, c1) ← insert fuel .empty (pfx ++ k.take (matchlen + 1)) (k.drop (matchlen + 1)) v
          let some kk := childIndex key matchlen | .error .panic
          let (_, c2) ← insert fuel .empty (pfx ++ key.take (matchlen + 1)) (key.drop (matchlen + 1)) value
          let branch : Node := .full (Function.update (Function.update noChildren ki c1) kk c2) (newFlag cachegen)
          if matchlen = 0 then pure (true, branch)
          else pure (true, .short (key.take matchlen) branch (newFlag cachegen))
      | .full c _ => do
        let some i := childIndex key 0 | .error .panic
        let (dirty, nn) ← insert fuel (c i) (pfx ++ key.take 1) (key.drop 1) value
        if !dirty then pure (false, n) else pure (true, .full (Function.update c i nn) (newFlag cachegen))
      | .empty => .ok (true, .short key value (newFlag cachegen))
      | .hash h => do
        -- load the node and insert into it
        let rn ← resolveHash db cachegen h pfx
        let (dirty, nn) ← insert fuel rn pfx key value
        if !dirty then pure (false, rn) else pure (true, nn)
      | .value _ => .error .panic

/-- The position loop of `delete`: the index of the one child left, `-1` for none, `-2` for two or more. -/
def remainingPos (c : Fin 17 → Node) : Int :=
  (List.finRange 17).foldl (fun pos i =>
    match c i with
    | .empty => pos
    | _ => if pos = -1 then i.val else -2) (-1)

/-- `delete(n, prefix, key)`: whether the trie changed, and the node to put in `n`'s place, reduced to minimal form
on the way up. -/
def delete : Nat → Node → List UInt8 → List UInt8 → Except TrieError (Bool × Node)
  | 0, _, _, _ => .error .deep
  | fuel + 1, n, pfx, key =>
    match n with
    | .short k v _ =>
      let matchlen := prefixLen key k
      if matchlen < k.length then .ok (false, n)
      else if matchlen = key.length then .ok (true, .empty)
      else do
        let (dirty, child) ← delete fuel v (pfx ++ key.take k.length) (key.drop k.length)
        if !dirty then pure (false, n)
        else
          match child with
          -- merge the two short nodes
          | .short ck cv _ => pure (true, .short (k ++ ck) cv (newFlag cachegen))
          | _ => pure (true, .short k child (newFlag cachegen))
    | .full c _ => do
      let some i := childIndex key 0 | .error .panic
      let (dirty, nn) ← delete fuel (c i) (pfx ++ key.take 1) (key.drop 1)
      if !dirty then pure (false, n)
      else
        let c := Function.update c i nn
        let pos := remainingPos c
        if h : 0 ≤ pos ∧ pos < 17 then
          let j : Fin 17 := ⟨pos.toNat, by omega⟩
          if pos ≠ 16 then do
            -- the one child left replaces the full node; a short node takes the nibble in front of its key
            let cnode ← resolve db cachegen (c j) pfx
            match cnode with
            | .short ck cv _ => pure (true, .short (UInt8.ofNat j.val :: ck) cv (newFlag cachegen))
            | _ => pure (true, .short [UInt8.ofNat j.val] (c j) (newFlag cachegen))
          else pure (true, .short [UInt8.ofNat j.val] (c j) (newFlag cachegen))
        else pure (true, .full c (newFlag cachegen))
    | .value _ => .ok (true, .empty)
    | .empty => .ok (false, .empty)
    | .hash h => do
      let rn ← resolveHash db cachegen h pfx
      let (dirty, nn) ← delete fuel rn pfx key
      if !dirty then pure (false, rn) else pure (true, nn)

end Resolve

/-! ## The hasher -/

/-- A `hasher`'s generation and limit. -/
structure Hasher where
  cachegen : UInt16
  cachelimit : UInt16
  deriving DecidableEq, Repr

/-- What `hash` caches in a node's flags: the hash it stored the node under, if it did, and in commit mode the node
is clean. -/
def NodeFlag.setCache (f : NodeFlag) (hashed : Node) (commit : Bool) : NodeFlag :=
  { f with hash := (match hashed with | .hash h => some h | _ => none), dirty := if commit then false else f.dirty }

section Hash

variable (encode : Node → List UInt8) (keccak : List UInt8 → List UInt8)

/-- `store(n, db, force)` of a collapsed node: a node whose encoding is under 32 bytes stays in its parent unless
forced; a larger one is replaced by its hash, the cached one or the Keccak of its encoding. -/
def store (n : Node) (force : Bool) : Node :=
  match n with
  | .empty | .hash _ => n
  | _ =>
    let tmp := encode n
    if tmp.length < 32 ∧ force = false then n
    else
      match n.cache with
      | some (some hash, _) => .hash hash
      | _ => .hash (keccak tmp)

/-- The start of `hash` for a node with flags `f`: the cached hash, unless the node must be stored. In commit mode a
node that `canUnload` is replaced by its hash. -/
def Hasher.fromCache (h : Hasher) (commit : Bool) (n : Node) (f : NodeFlag) : Option (Node × Node) :=
  match f.hash with
  | none => none
  | some hash =>
    if !commit then some (.hash hash, n)
    else if f.canUnload h.cachegen h.cachelimit then some (.hash hash, .hash hash)
    else if !f.dirty then some (.hash hash, n)
    else none

/-- `hash(n, db, force)`, in commit mode when the database is given: the collapsed node or its hash, and the node to
keep in memory, with its hash cached and, in commit mode, clean. `none` where Go panics on a nil node. -/
def Hasher.hash (h : Hasher) (commit : Bool) : Node → Bool → Option (Node × Node)
  | .empty, _ => none
  | .short k v f, force =>
    match h.fromCache commit (.short k v f) f with
    | some r => some r
    | none => do
      let ck ← hexToCompact k
      let (collapsedVal, cachedVal) ← match v with
        | .value _ => some (v, v)
        | _ => h.hash commit v false
      let hashed := store encode keccak (.short ck collapsedVal f) force
      some (hashed, .short k cachedVal (f.setCache hashed commit))
  | .full c f, force =>
    match h.fromCache commit (.full c f) f with
    | some r => some r
    | none => do
      let (collapsed, cached) ← (List.finRange 16).foldlM (fun (acc : (Fin 17 → Node) × (Fin 17 → Node)) i =>
        match c i.castSucc with
        | .empty => some acc
        | _ => do
          let (hc, cc) ← h.hash commit (c i.castSucc) false
          some (Function.update acc.1 i.castSucc hc, Function.update acc.2 i.castSucc cc)) (c, c)
      let hashed := store encode keccak (.full collapsed f) force
      some (hashed, .full cached (f.setCache hashed commit))
  | .hash hash, force => some (store encode keccak (.hash hash) force, .hash hash)
  | .value v, force => some (store encode keccak (.value v) force, .value v)

end Hash

/-! ## The trie's operations -/

/-- A `Trie`: its root, and the cache generation and limit. -/
structure Trie where
  root : Node
  cachegen : UInt16
  cachelimit : UInt16

/-- `New(root, db)`: an empty trie for the zero hash and `emptyRoot`, and otherwise the root resolved. -/
def newTrie (db : List UInt8 → Option RawNode) (root : List UInt8) : Except TrieError Trie :=
  if root = List.replicate 32 0 ∨ root = emptyRoot then .ok ⟨.empty, 0, 0⟩
  else do
    let rootnode ← resolveHash db 0 root []
    pure ⟨rootnode, 0, 0⟩

/-- `hashRoot(db, onleaf)`, in commit mode when the database is given. -/
def Trie.hashRoot (encode : Node → List UInt8) (keccak : List UInt8 → List UInt8) (t : Trie) (commit : Bool) :
    Option (Node × Node) :=
  match t.root with
  | .empty => some (.hash emptyRoot, .empty)
  | root => (Hasher.mk t.cachegen t.cachelimit).hash encode keccak commit root true

/-- An operation on a trie, with the database it reads. -/
inductive Op where
  | tryGet (db : List UInt8 → Option RawNode) (key : List UInt8)
  | tryUpdate (db : List UInt8 → Option RawNode) (key value : List UInt8)
  | tryDelete (db : List UInt8 → Option RawNode) (key : List UInt8)
  | hash
  | commit
  | setCacheLimit (l : UInt16)

/-- The trie after an operation that returned `r`: an error leaves it as it was; `none` if Go panics. -/
def Trie.afterOp (t : Trie) (r : Except TrieError Node) : Option Trie :=
  match r with
  | .ok root => some { t with root := root }
  | .error (.missingNode _ _) => some t
  | .error _ => none

/-- One operation; `none` if it panics. -/
def Trie.step (encode : Node → List UInt8) (keccak : List UInt8 → List UInt8) (fuel : Nat) (t : Trie) :
    Op → Option Trie
  | .tryGet db key =>
    t.afterOp ((tryGet db t.cachegen fuel t.root (keybytesToHex key) 0).map fun (_, newroot, didResolve) =>
      if didResolve then newroot else t.root)
  | .tryUpdate db key value =>
    let k := keybytesToHex key
    if value.length ≠ 0 then t.afterOp ((insert db t.cachegen fuel t.root [] k (.value value)).map (·.2))
    else t.afterOp ((delete db t.cachegen fuel t.root [] k).map (·.2))
  | .tryDelete db key => t.afterOp ((delete db t.cachegen fuel t.root [] (keybytesToHex key)).map (·.2))
  | .hash => (t.hashRoot encode keccak false).map fun (_, cached) => { t with root := cached }
  | .commit =>
    (t.hashRoot encode keccak true).map fun (_, cached) => { t with root := cached, cachegen := t.cachegen + 1 }
  | .setCacheLimit l => some { t with cachelimit := l }

/-- Operations one after another, as long as none panics. -/
def Trie.run (encode : Node → List UInt8) (keccak : List UInt8 → List UInt8) (fuel : Nat) (t : Trie) :
    List Op → Option Trie
  | [] => some t
  | op :: ops => (t.step encode keccak fuel op).bind fun t => t.run encode keccak fuel ops

end Etherzero.Trie
