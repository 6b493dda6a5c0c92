import Mathlib

/-!
# The masternode contract (contracts/masternode/contract/masternode.sol)

The contract keeps a linked list of registered masternodes, each under the first eight bytes of its public key, the
owner's id under `ids` and the node account's id under `nodeAddressToId`. `register` adds a node for a deposit of
`etzPerNode`, the fallback is a ping from a node account or else a quit by an owner, which unlinks the node and
returns the deposit of a node not in the genesis block. Governance: anyone can open a vote on an address for a
`proposalFee`, every owner whose node is older than `proposalPeriod` may vote once per address while the vote is
open, and the vote that makes the count pass `count / 2` sets `governanceAddress`.

Mappings are functions, zero where never written, as Solidity reads them. `uint` arithmetic wraps modulo `2^256`
(Solidity 0.4 has no checks). The precompiled contract at `0x0b`, which gives the account of a node's public key, is
a parameter (`nodeAccount`); a failed call reverts. A call's value is in the balance while the body runs; a function
that is not `payable` rejects any. Transfers go to the node accounts and owners, which accept them. Events and the
getters, which change no storage, are left out.
-/

namespace Etherzero.Masternode

/-- `address`. -/
abbrev Address := BitVec 160

/-- `bytes8`. -/
abbrev Bytes8 := BitVec 64

/-- `bytes32`. -/
abbrev Bytes32 := BitVec 256

/-- `uint` addition and multiplication results, modulo `2^256`. -/
def wrap (x : Nat) : Nat := x % 2 ^ 256

/-- `uint` subtraction, modulo `2^256`. -/
def wrapSub (a b : Nat) : Nat := (a + (2 ^ 256 - b % 2 ^ 256)) % 2 ^ 256

/-- `etzPerNode`. -/
def etzPerNode : Nat := 20000 * 10 ^ 18

/-- `etzMin`. -/
def etzMin : Nat := 10 ^ 16

/-- `blockPingTimeout`. -/
def blockPingTimeout : Nat := 3600

/-- `proposalPeriod`. -/
def proposalPeriod : Nat := 1200000

/-- `proposalFee`. -/
def proposalFee : Nat := 100 * 10 ^ 18

/-- `node`. -/
structure Node where
  id1 : Bytes32
  id2 : Bytes32
  preId : Bytes8
  nextId : Bytes8
  account : Address
  block : Nat
  blockOnlineAcc : Nat
  blockLastPing : Nat

/-- The `node` every unwritten key reads, and the one `quit` writes. -/
def Node.zero : Node := ⟨0, 0, 0, 0, 0, 0, 0, 0⟩

/-- `vote`. -/
structure Vote where
  voteCount : Nat
  startBlock : Nat
  stopBlock : Nat
  creator : Address
  lastAddress : Address

/-- The contract's storage and its balance. -/
structure State where
  lastId : Bytes8
  count : Nat
  nodes : Bytes8 → Node
  ids : Address → Bytes8
  nodeAddressToId : Address → Bytes8
  proposalCount : Nat
  governanceAddress : Address
  lastProposalAddress : Address
  voters : Address → Address → Bool
  votes : Address → Vote
  balance : Nat

/-- What a call reads of its transaction and block. -/
structure Msg where
  sender : Address
  value : Nat
  blockNumber : Nat

variable (nodeAccount : Bytes32 → Bytes32 → Option Address)

/-- `has`. -/
def State.has (s : State) (id : Bytes8) : Bool := (s.nodes id).id1 != 0

/-- `getId`. -/
def State.getId (s : State) (addr : Address) : Bytes8 := s.ids addr

/-- `register`; `bytes8(id1)` is the first eight bytes of `id1`. -/
def State.register (s : State) (msg : Msg) (id1 id2 : Bytes32) : Option State := do
  let id : Bytes8 := id1.extractLsb' 192 64
  guard (0 ≠ id1 ∧ 0 ≠ id2 ∧ 0 ≠ id ∧ 0 = s.ids msg.sender ∧ 0 = (s.nodes id).id1 ∧ msg.value = etzPerNode)
  let account ← nodeAccount id1 id2
  guard (account ≠ 0)
  let s := { s with
    ids := Function.update s.ids msg.sender id
    nodes := Function.update s.nodes id ⟨id1, id2, s.lastId, 0, msg.sender, msg.blockNumber, 0, 0⟩ }
  let s := if s.lastId ≠ 0 then
      { s with nodes := Function.update s.nodes s.lastId { s.nodes s.lastId with nextId := id } }
    else s
  let s := { s with
    lastId := id
    count := wrap (s.count + 1)
    nodeAddressToId := Function.update s.nodeAddressToId account id }
  -- account.transfer(etzMin)
  guard (etzMin ≤ s.balance)
  pure { s with balance := s.balance - etzMin }

/-- The ping branch of the fallback, for the node `id` of the sender's account. -/
def State.ping (s : State) (msg : Msg) (id : Bytes8) : State :=
  let n := s.nodes id
  let blockOnlineAcc :=
    if n.blockLastPing > 0 then
      let blockGap := wrapSub msg.blockNumber n.blockLastPing
      if blockGap > blockPingTimeout then 0 else wrap (n.blockOnlineAcc + blockGap)
    else n.blockOnlineAcc
  { s with nodes := Function.update s.nodes id { n with blockOnlineAcc, blockLastPing := msg.blockNumber } }

/-- The quit branch of the fallback: the sender's node is unlinked and cleared. -/
def State.quit (s : State) (msg : Msg) : Option State := do
  let id := s.ids msg.sender
  let id1 := (s.nodes id).id1
  guard (msg.value = 0 ∧ 0 ≠ id ∧ 0 ≠ id1 ∧ etzPerNode - etzMin ≤ s.balance ∧ s.count > 0)
  let account ← nodeAccount id1 (s.nodes id).id2
  let s := { s with nodeAddressToId := Function.update s.nodeAddressToId account 0 }
  let preId := (s.nodes id).preId
  let nextId := (s.nodes id).nextId
  let s := if preId ≠ 0 then
      { s with nodes := Function.update s.nodes preId { s.nodes preId with nextId := nextId } }
    else s
  let s := if nextId ≠ 0 then
      { s with nodes := Function.update s.nodes nextId { s.nodes nextId with preId := preId } }
    else { s with lastId := preId }
  let notGenesisNode := (s.nodes id).block > 0
  let s := { s with
    nodes := Function.update s.nodes id Node.zero
    ids := Function.update s.ids msg.sender 0
    count := wrapSub s.count 1 }
  if notGenesisNode then
    -- msg.sender.transfer(etzPerNode - etzMin)
    guard (etzPerNode - etzMin ≤ s.balance)
    pure { s with balance := s.balance - (etzPerNode - etzMin) }
  else pure s

/-- The fallback: a ping from a node account of a registered node, a quit otherwise. -/
def State.fallback (s : State) (msg : Msg) : Option State := do
  guard (msg.value = 0)
  let id := s.nodeAddressToId msg.sender
  if id ≠ 0 ∧ s.has id then pure (s.ping msg id) else s.quit nodeAccount msg

/-- `initGovernanceAddress`. -/
def State.initGovernanceAddress (s : State) (msg : Msg) (addr : Address) : Option State := do
  guard (0 = s.proposalCount ∧ 0 = s.governanceAddress ∧ 0 ≠ s.getId msg.sender)
  pure { s with governanceAddress := addr }

/-- `createGovernanceAddressVote`. -/
def State.createGovernanceAddressVote (s : State) (msg : Msg) (addr : Address) : Option State := do
  guard (0 = (s.votes addr).voteCount ∧ 0 = (s.votes addr).startBlock ∧ msg.value = proposalFee)
  let v : Vote := ⟨0, msg.blockNumber, wrap (msg.blockNumber + proposalPeriod), msg.sender, s.lastProposalAddress⟩
  pure { s with
    votes := Function.update s.votes addr v
    lastProposalAddress := addr
    proposalCount := wrap (s.proposalCount + 1) }

/-- `voteForGovernanceAddress`. -/
def State.voteForGovernanceAddress (s : State) (msg : Msg) (addr : Address) : Option State := do
  let v := s.votes addr
  let id := s.getId msg.sender
  guard (v.startBlock > 0 ∧ msg.blockNumber > v.startBlock ∧ msg.blockNumber < v.stopBlock ∧ id ≠ 0 ∧
    wrapSub msg.blockNumber (s.nodes id).block > proposalPeriod ∧ s.voters addr msg.sender = false)
  let s := { s with voters := Function.update s.voters addr (Function.update (s.voters addr) msg.sender true) }
  let v := { v with voteCount := wrap (v.voteCount + 1) }
  if v.voteCount > s.count / 2 then
    pure { s with votes := Function.update s.votes addr { v with stopBlock := msg.blockNumber }, governanceAddress := addr }
  else pure { s with votes := Function.update s.votes addr v }

/-- The functions that change storage. -/
inductive Call where
  | register (id1 id2 : Bytes32)
  | fallback
  | initGovernanceAddress (addr : Address)
  | createGovernanceAddressVote (addr : Address)
  | voteForGovernanceAddress (addr : Address)

/-- The call's value credited to the contract, before the body runs. -/
def State.credit (s : State) (msg : Msg) : State := { s with balance := s.balance + msg.value }

/-- A call of the contract: `none` when it reverts. -/
def State.call (s : State) (msg : Msg) : Call → Option State
  | .register id1 id2 => (s.credit msg).register nodeAccount msg id1 id2
  | .fallback => (s.credit msg).fallback nodeAccount msg
  | .initGovernanceAddress addr => (s.credit msg).initGovernanceAddress msg addr
  | .createGovernanceAddressVote addr => (s.credit msg).createGovernanceAddressVote msg addr
  -- not payable
  | .voteForGovernanceAddress addr => if msg.value ≠ 0 then none else s.voteForGovernanceAddress msg addr

/-- A transaction to the contract. -/
structure Tx where
  msg : Msg
  call : Call

/-- Transactions one after another; one that reverts leaves the contract as it was. -/
def State.run (s : State) (txs : List Tx) : State :=
  txs.foldl (fun s tx => (s.call nodeAccount tx.msg tx.call).getD s) s

end Etherzero.Masternode
