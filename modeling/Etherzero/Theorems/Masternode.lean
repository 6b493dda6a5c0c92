import Mathlib
import Etherzero.Lemmas.Masternode

/-!
# A governance vote passes on the votes of owners who have quit

A vote for the governance address that changes it has over `count / 2` recorded voters, over every run from storage
whose counts are their voters. They need not have nodes any more: `quit` clears the owner's `ids` entry and node but
not its flags in `voters`, nor the vote's count, which the next vote compares with the lowered `count`. With three
genesis nodes, an owner who votes and quits and one more vote set the governance address, while of the two owners
left only one has voted.
-/

namespace Etherzero.Masternode

variable (nodeAccount : Bytes32 → Bytes32 → Option Address)

/-- A vote call that changes the governance address sets it to the address voted for, and more than half of `count`
owners have a recorded vote for it, whether or not they still have a node. -/
theorem governance_change_has_voter_majority (s₀ : State) (h₀ : s₀.VotesCounted) (txs : List Tx) (tx : Tx)
    (addr : Address) (hcall : tx.call = .voteForGovernanceAddress addr)
    (hchange : (s₀.run nodeAccount (txs ++ [tx])).governanceAddress ≠ (s₀.run nodeAccount txs).governanceAddress) :
    (s₀.run nodeAccount (txs ++ [tx])).governanceAddress = addr ∧
      (s₀.run nodeAccount (txs ++ [tx])).count / 2 < ((s₀.run nodeAccount (txs ++ [tx])).votersFor addr).card := by
  have hs := h₀.run nodeAccount txs
  rw [State.run_append] at hchange ⊢
  generalize s₀.run nodeAccount txs = s at hs hchange ⊢
  simp only [State.run_cons, State.run_nil, hcall, State.call] at hchange ⊢
  -- a vote that carries a value or reverts leaves the state, and so the governance address, as it was
  split_ifs at hchange ⊢
  · exact absurd rfl hchange
  · cases h : s.voteForGovernanceAddress tx.msg addr with
    | none =>
      rw [h] at hchange
      exact absurd rfl hchange
    | some s' =>
      rw [h] at hchange
      exact State.voteForGovernanceAddress_governance hs h hchange

/-- The key of genesis node `k`: its first eight bytes, which are its id, are `k`, and so are its last eight. -/
def keyOf (k : Nat) : Bytes32 := BitVec.ofNat 256 (k * 2 ^ 192 + k)

/-- A stand-in for the precompile: the node account is the low 160 bits of the key's first half. -/
def accountOf (id1 _ : Bytes32) : Option Address := some (id1.setWidth 160)

def ownerA : Address := 0xa

def ownerB : Address := 0xb

def ownerC : Address := 0xc

/-- The one who opens the vote, and the address voted for. -/
def proposer : Address := 0xd

def proposed : Address := 0xe

/-- Genesis node `k` of `owner`, linked between `pre` and `next`. -/
def genesisNode (k : Nat) (owner : Address) (pre next : Bytes8) : Node :=
  ⟨keyOf k, keyOf k, pre, next, owner, 0, 0, 0⟩

/-- Storage with the genesis nodes 1, 2 and 3 of owners A, B and C, their deposits, and no votes. -/
def threeNodeGenesis : State where
  lastId := 3
  count := 3
  nodes := fun id =>
    if id = 1 then genesisNode 1 ownerA 0 2
    else if id = 2 then genesisNode 2 ownerB 1 3
    else if id = 3 then genesisNode 3 ownerC 2 0
    else Node.zero
  ids := fun a => if a = ownerA then 1 else if a = ownerB then 2 else if a = ownerC then 3 else 0
  nodeAddressToId := fun a => if a = 1 then 1 else if a = 2 then 2 else if a = 3 then 3 else 0
  proposalCount := 0
  governanceAddress := 0
  lastProposalAddress := 0
  voters := fun _ _ => false
  votes := fun _ => ⟨0, 0, 0, 0, 0⟩
  balance := 3 * etzPerNode

/-- A vote for `proposed` is opened, owner A votes for it and quits. -/
def voteThenQuit : List Tx :=
  [⟨⟨proposer, proposalFee, proposalPeriod + 1⟩, .createGovernanceAddressVote proposed⟩,
    ⟨⟨ownerA, 0, proposalPeriod + 2⟩, .voteForGovernanceAddress proposed⟩,
    ⟨⟨ownerA, 0, proposalPeriod + 3⟩, .fallback⟩]

/-- Owner B votes for `proposed`. -/
def lastVote : Tx := ⟨⟨ownerB, 0, proposalPeriod + 4⟩, .voteForGovernanceAddress proposed⟩

def beforeLastVote : State := threeNodeGenesis.run accountOf voteThenQuit

def afterLastVote : State := threeNodeGenesis.run accountOf (voteThenQuit ++ [lastVote])

theorem governance_change_after_quit :
    threeNodeGenesis.VotesCounted ∧ lastVote.call = .voteForGovernanceAddress proposed ∧
      afterLastVote.governanceAddress ≠ beforeLastVote.governanceAddress ∧
      (afterLastVote.governanceAddress = proposed ∧
        afterLastVote.count / 2 < (afterLastVote.votersFor proposed).card) := by
  have h₀ : threeNodeGenesis.VotesCounted := by
    intro addr
    simp [State.votersFor, threeNodeGenesis]
  have hchange : afterLastVote.governanceAddress ≠ beforeLastVote.governanceAddress := by decide
  exact ⟨h₀, rfl, hchange,
    governance_change_has_voter_majority accountOf threeNodeGenesis h₀ voteThenQuit lastVote proposed rfl hchange⟩

/-- B's vote sets the governance address with `count = 2`, while of the owners with a node only B has voted for it,
which is not more than half. -/
theorem governance_passes_without_live_majority :
    beforeLastVote.governanceAddress ≠ proposed ∧ afterLastVote.governanceAddress = proposed ∧
      ((afterLastVote.votersFor proposed).filter fun o => afterLastVote.ids o ≠ 0).card ≤ afterLastVote.count / 2 := by
  refine ⟨by decide, rfl, ?_⟩
  -- the owners' ids and the flags for `proposed` after the run, read off by evaluation
  have hids : afterLastVote.ids = Function.update threeNodeGenesis.ids ownerA 0 := rfl
  have hvoters : afterLastVote.voters proposed =
      Function.update (Function.update (fun _ => false) ownerA true) ownerB true := rfl
  have hcount : afterLastVote.count = 2 := rfl
  have honly : ∀ o ∈ (afterLastVote.votersFor proposed).filter fun o => afterLastVote.ids o ≠ 0, o = ownerB := by
    intro o ho
    simp only [State.votersFor, Finset.mem_filter, Finset.mem_univ, true_and, hvoters, hids] at ho
    obtain ⟨hv, hid⟩ := ho
    by_contra hB
    rw [Function.update_of_ne hB] at hv
    -- the other voter is A, who has quit
    have hA : o = ownerA := by
      by_contra hA
      simp [Function.update_of_ne hA] at hv
    subst hA
    simp at hid
  rw [hcount]
  exact Finset.card_le_one.mpr fun a ha b hb => (honly a ha).trans (honly b hb).symm

end Etherzero.Masternode
