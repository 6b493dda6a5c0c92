import Mathlib
import Etherzero.Contracts.Masternode

/-!
# Governance votes: what each call writes of them (contracts/masternode/contract/masternode.sol)

`votes` and `voters` are written by `createGovernanceAddressVote`, which opens a vote at a count of zero, and by
`voteForGovernanceAddress`, which sets the sender's flag and adds one to the count; `register` and the fallback
leave both alone. So every count is the number of flags set (`VotesCounted`) in each state that calls reach from
storage where that holds, such as genesis storage, which has no votes. No call clears a flag: an owner who quits
keeps the votes it cast, and a vote passes against the `count` of its own moment.
-/

namespace Etherzero.Masternode

variable (nodeAccount : Bytes32 → Bytes32 → Option Address)

/-- The owners whose vote for `addr` is recorded in `voters`. -/
def State.votersFor (s : State) (addr : Address) : Finset Address :=
  Finset.univ.filter fun o => s.voters addr o = true

/-- Every vote's `voteCount` is its number of voters. -/
def State.VotesCounted (s : State) : Prop :=
  ∀ addr, (s.votes addr).voteCount = (s.votersFor addr).card

/-- `s'` has the votes and the voters of `s`. -/
def State.SameVoting (s s' : State) : Prop :=
  s'.voters = s.voters ∧ s'.votes = s.votes

theorem State.VotesCounted.of_sameVoting {s s' : State} (hs : s.VotesCounted) (h : s.SameVoting s') :
    s'.VotesCounted := by
  intro addr
  simp only [State.votersFor, h.1, h.2]
  exact hs addr

/-! ## Runs of calls -/

@[simp] theorem State.run_nil (s : State) : s.run nodeAccount [] = s := rfl

@[simp] theorem State.run_cons (s : State) (tx : Tx) (txs : List Tx) :
    s.run nodeAccount (tx :: txs) = ((s.call nodeAccount tx.msg tx.call).getD s).run nodeAccount txs := rfl

theorem State.run_append (s : State) (txs txs' : List Tx) :
    s.run nodeAccount (txs ++ txs') = (s.run nodeAccount txs).run nodeAccount txs' := by
  simp only [State.run, List.foldl_append]

/-- A run keeps every property that each successful call keeps. -/
theorem State.run_induction (P : State → Prop)
    (hcall : ∀ s s' msg c, P s → s.call nodeAccount msg c = some s' → P s') :
    ∀ (s : State) (txs : List Tx), P s → P (s.run nodeAccount txs) := by
  intro s txs hs
  induction txs generalizing s with
  | nil => exact hs
  | cons tx txs ih =>
    rw [State.run_cons]
    apply ih
    -- a call that reverts leaves the state as it was
    cases h : s.call nodeAccount tx.msg tx.call with
    | none => exact hs
    | some s' => exact hcall s s' tx.msg tx.call hs h

/-! ## What each call writes -/

section Calls

variable {nodeAccount} {s s' : State} {msg : Msg}

theorem State.register_sameVoting {id1 id2 : Bytes32} (h : s.register nodeAccount msg id1 id2 = some s') :
    s.SameVoting s' := by
  unfold State.register at h
  -- the checks, the precompile's account, its check, and the transfer of `etzMin`
  obtain ⟨_, -, h⟩ := Option.bind_eq_some_iff.mp h
  obtain ⟨_, -, h⟩ := Option.bind_eq_some_iff.mp h
  obtain ⟨_, -, h⟩ := Option.bind_eq_some_iff.mp h
  obtain ⟨_, -, h⟩ := Option.bind_eq_some_iff.mp h
  cases h
  -- linked after the last node, or the first one
  split_ifs <;> exact ⟨rfl, rfl⟩

theorem State.sameVoting_ping (s : State) (msg : Msg) (id : Bytes8) : s.SameVoting (s.ping msg id) :=
  ⟨rfl, rfl⟩

theorem State.quit_sameVoting (h : s.quit nodeAccount msg = some s') : s.SameVoting s' := by
  unfold State.quit at h
  obtain ⟨_, -, h⟩ := Option.bind_eq_some_iff.mp h
  obtain ⟨_, -, h⟩ := Option.bind_eq_some_iff.mp h
  dsimp only at h
  -- the two unlinking steps, then the refund of a node that is not a genesis node
  split_ifs at h
  -- a refund ends in the check of the balance; the other branches return the state
  all_goals first
    | cases h
    | obtain ⟨_, -, h⟩ := Option.bind_eq_some_iff.mp h
      cases h
  all_goals exact ⟨rfl, rfl⟩

theorem State.fallback_sameVoting (h : s.fallback nodeAccount msg = some s') : s.SameVoting s' := by
  unfold State.fallback at h
  obtain ⟨_, -, h⟩ := Option.bind_eq_some_iff.mp h
  dsimp only at h
  split_ifs at h
  · cases h
    exact s.sameVoting_ping msg _
  · exact State.quit_sameVoting h

theorem State.initGovernanceAddress_eq_some {addr : Address} (h : s.initGovernanceAddress msg addr = some s') :
    0 = s.proposalCount ∧ 0 = s.governanceAddress ∧ s' = { s with governanceAddress := addr } := by
  unfold State.initGovernanceAddress at h
  obtain ⟨_, hg, h⟩ := Option.bind_eq_some_iff.mp h
  obtain ⟨hp, hg, -⟩ := (Option.guard_eq_some' _).mp hg
  cases h
  exact ⟨hp, hg, rfl⟩

theorem State.createGovernanceAddressVote_eq_some {addr : Address}
    (h : s.createGovernanceAddressVote msg addr = some s') :
    (s.votes addr).voteCount = 0 ∧
      s' = { s with
        votes := Function.update s.votes addr
          ⟨0, msg.blockNumber, wrap (msg.blockNumber + proposalPeriod), msg.sender, s.lastProposalAddress⟩
        lastProposalAddress := addr
        proposalCount := wrap (s.proposalCount + 1) } := by
  unfold State.createGovernanceAddressVote at h
  obtain ⟨_, hg, h⟩ := Option.bind_eq_some_iff.mp h
  obtain ⟨hzero, -, -⟩ := (Option.guard_eq_some' _).mp hg
  cases h
  exact ⟨hzero.symm, rfl⟩

/-- A successful vote: the sender has a node and had not voted for `addr`; its flag is set and the count goes up
by one, and a count over half of `count` closes the vote and sets the governance address. -/
theorem State.voteForGovernanceAddress_eq_some {addr : Address}
    (h : s.voteForGovernanceAddress msg addr = some s') :
    s.getId msg.sender ≠ 0 ∧ s.voters addr msg.sender = false ∧
      s' = { s with
        voters := Function.update s.voters addr (Function.update (s.voters addr) msg.sender true)
        votes := Function.update s.votes addr
          { s.votes addr with
            voteCount := wrap ((s.votes addr).voteCount + 1)
            stopBlock :=
              if wrap ((s.votes addr).voteCount + 1) > s.count / 2 then msg.blockNumber
              else (s.votes addr).stopBlock }
        governanceAddress :=
          if wrap ((s.votes addr).voteCount + 1) > s.count / 2 then addr else s.governanceAddress } := by
  unfold State.voteForGovernanceAddress at h
  obtain ⟨_, hg, h⟩ := Option.bind_eq_some_iff.mp h
  obtain ⟨-, -, -, hid, -, hfresh⟩ := (Option.guard_eq_some' _).mp hg
  refine ⟨hid, hfresh, ?_⟩
  dsimp only at h
  split_ifs at h ⊢ <;> cases h <;> rfl

end Calls

/-! ## The count of a vote is its number of voters -/

/-- Setting one flag of a `Bool` function adds its point to the points where it is true. -/
theorem filter_update_true {α : Type} [Fintype α] [DecidableEq α] (f : α → Bool) (a : α) :
    Finset.univ.filter (fun x => Function.update f a true x = true) = insert a (Finset.univ.filter fun x => f x = true) := by
  ext x
  by_cases hx : x = a
  · subst hx
    simp
  · simp [hx]

theorem State.card_votersFor_le (s : State) (addr : Address) : (s.votersFor addr).card ≤ 2 ^ 160 := by
  calc (s.votersFor addr).card ≤ Fintype.card Address := Finset.card_le_univ _
    _ = 2 ^ 160 := FinEnum.card_eq_fintypeCard.symm.trans (FinEnum.card_bitVec 160)

section Counted

variable {nodeAccount} {s s' : State} {msg : Msg} {addr : Address}

/-- Crediting a call's value writes the balance only. -/
theorem State.VotesCounted.credit (hs : s.VotesCounted) : (s.credit msg).VotesCounted := hs

theorem State.VotesCounted.createGovernanceAddressVote (hs : s.VotesCounted)
    (h : s.createGovernanceAddressVote msg addr = some s') : s'.VotesCounted := by
  obtain ⟨hzero, rfl⟩ := State.createGovernanceAddressVote_eq_some h
  intro b
  dsimp only
  by_cases hb : b = addr
  · subst hb
    -- the vote opens at zero, and nobody had voted, since its count was zero
    rw [Function.update_self, ← hzero, hs b]
    rfl
  · rw [Function.update_of_ne hb]
    exact hs b

theorem State.VotesCounted.voteForGovernanceAddress (hs : s.VotesCounted)
    (h : s.voteForGovernanceAddress msg addr = some s') : s'.VotesCounted := by
  obtain ⟨-, hfresh, rfl⟩ := State.voteForGovernanceAddress_eq_some h
  intro b
  by_cases hb : b = addr
  · subst hb
    have hnew : msg.sender ∉ Finset.univ.filter fun o => s.voters b o = true := by simp [hfresh]
    have hle := s.card_votersFor_le b
    -- one more voter, and far below `2^256`, so the `uint` addition does not wrap
    simp only [State.votersFor, Function.update_self, filter_update_true]
    rw [Finset.card_insert_of_notMem hnew, hs b, wrap, Nat.mod_eq_of_lt (by omega)]
    rfl
  · simp only [State.votersFor, Function.update_of_ne hb]
    exact hs b

/-- Every call keeps each vote's count equal to its number of voters. -/
theorem State.VotesCounted.call {c : Call} (hs : s.VotesCounted) (h : s.call nodeAccount msg c = some s') :
    s'.VotesCounted := by
  cases c <;> simp only [State.call] at h
  case register => exact hs.credit.of_sameVoting (State.register_sameVoting h)
  case fallback => exact hs.credit.of_sameVoting (State.fallback_sameVoting h)
  case initGovernanceAddress =>
    obtain ⟨-, -, rfl⟩ := State.initGovernanceAddress_eq_some h
    exact hs
  case createGovernanceAddressVote => exact hs.credit.createGovernanceAddressVote h
  case voteForGovernanceAddress =>
    split_ifs at h
    exact hs.voteForGovernanceAddress h

/-- A vote that changes the governance address sets it to the address voted for, with more than half of `count`
voters for it. -/
theorem State.voteForGovernanceAddress_governance (hs : s.VotesCounted)
    (h : s.voteForGovernanceAddress msg addr = some s') (hchange : s'.governanceAddress ≠ s.governanceAddress) :
    s'.governanceAddress = addr ∧ s'.count / 2 < (s'.votersFor addr).card := by
  have hcounted := (hs.voteForGovernanceAddress h) addr
  obtain ⟨-, -, rfl⟩ := State.voteForGovernanceAddress_eq_some h
  -- only the branch where the vote passes writes the governance address
  split_ifs at hchange hcounted ⊢ with hpass
  · refine ⟨rfl, ?_⟩
    rw [← hcounted]
    simpa using hpass
  · exact absurd rfl hchange

end Counted

theorem State.VotesCounted.run {s : State} (hs : s.VotesCounted) (txs : List Tx) :
    (s.run nodeAccount txs).VotesCounted :=
  State.run_induction nodeAccount State.VotesCounted (fun _ _ _ _ hs h => hs.call h) s txs hs

end Etherzero.Masternode
