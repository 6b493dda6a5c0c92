import Mathlib
import Etherzero.Lib.StateExcept
import Etherzero.Devote.Engine

/-!
# What `snapshot` returns, and which block the confirmation picks

The search gathers a run of headers walking back from the requested block, each the parent of the one before and
one number below it, and stops at the first block where it finds a snapshot. `apply` then names the result after
the headers it applied: its `Number` is the oldest one's, its `Hash` the newest one's. So a snapshot made from `k`
gathered headers of block `number` has that block's hash but the number `number - (k - 1)`, and one found at the
requested block itself is returned as it was found, with the zero hash and number when it is a new one.

`confirmTarget` says which block the confirmation is for, counting for each block the distinct witnesses of its
cycle among all the blocks walked. The loop counts only since the last change of cycle, and stops early when too few
blocks are left: over linked headers, whose times do not go up walking back, a cycle once left does not come again,
and each block adds at most one witness, so both give the same block.
-/

namespace Etherzero.Devote

/-- `chain.GetHeader` gives the block of the hash and number it is asked for. -/
def SnapshotEnv.HeadersMatch (env : SnapshotEnv) : Prop :=
  ∀ hash number header, env.header hash number = some header → header.hash = hash ∧ header.number = number

/-- Headers gathered walking back from block `number` of hash `hash`, newest first: the first one is that block, and
each next one is the parent of the one before, one number below it. -/
def Gathered (number : UInt64) (hash : List UInt8) : List ChainHeader → Prop
  | [] => True
  | h :: hs => h.number = number ∧ h.hash = hash ∧ Gathered (number - 1) h.parentHash hs

/-- The oldest of `k` gathered headers is `k - 1` blocks below the first. -/
theorem Gathered.getLast_number {number : UInt64} {hash : List UInt8} {hs : List ChainHeader}
    (h : Gathered number hash hs) (hne : hs ≠ []) :
    (hs.getLast hne).number = number - UInt64.ofNat (hs.length - 1) := by
  induction hs generalizing number hash with
  | nil => exact absurd rfl hne
  | cons g gs ih =>
    obtain ⟨hnum, -, hgs⟩ := h
    cases gs with
    | nil => simp [hnum]
    | cons g' gs' =>
      rw [List.getLast_cons (List.cons_ne_nil g' gs'), ih hgs (List.cons_ne_nil g' gs')]
      -- one block below for each header after the first
      simp only [List.length_cons, Nat.add_sub_cancel]
      rw [sub_sub]
      congr 1
      simp [UInt64.ofNat_add, add_comm]

theorem SignerSnapshot.apply_eq_ok_of_ne_nil {ecrecover : ChainHeader → Option (List UInt8)}
    {s s' : SignerSnapshot} {hs : List ChainHeader} (hne : hs ≠ []) (h : s.apply ecrecover hs = .ok s') :
    s'.number = (hs.head hne).number ∧ s'.hash = (hs.getLast hne).hash := by
  cases hs with
  | nil => exact absurd rfl hne
  | cons first rest =>
    simp only [SignerSnapshot.apply] at h
    obtain ⟨snap, -, h⟩ := except_bind_eq_ok.mp h
    cases h
    exact ⟨rfl, rfl⟩

section Search

variable {env : SnapshotEnv}

theorem SnapshotEnv.gather_eq_ok (hm : env.HeadersMatch) {number : UInt64} {hash : List UInt8}
    {parents parents' : List ChainHeader} {header : ChainHeader}
    (h : env.gather number hash parents = .ok (header, parents')) :
    header.number = number ∧ header.hash = hash := by
  unfold SnapshotEnv.gather at h
  cases hp : parents.getLast? with
  | some last =>
    -- an explicit parent is checked against the block it must be
    rw [hp] at h
    simp only at h
    split_ifs at h with hcheck
    cases h
    simp only [not_or, not_not] at hcheck
    exact ⟨hcheck.2, hcheck.1⟩
  | none =>
    rw [hp] at h
    simp only at h
    cases hc : env.header hash number with
    | none =>
      rw [hc] at h
      cases h
    | some found =>
      rw [hc] at h
      cases h
      obtain ⟨hhash, hnum⟩ := hm hash number _ hc
      exact ⟨hnum, hhash⟩

/-- The search appends to its headers a gathered run from the block it starts at, and one found at that block stops it
with nothing gathered. -/
theorem SnapshotEnv.search_eq_ok (hm : env.HeadersMatch) {fuel : Nat} {number : UInt64} {hash : List UInt8}
    {parents headers out : List ChainHeader} {snap : SignerSnapshot}
    (h : env.search fuel number hash parents headers = some (.ok (snap, out))) :
    ∃ new, out = headers ++ new ∧ Gathered number hash new ∧
      (new = [] → env.found number hash = some (.ok snap)) := by
  induction fuel generalizing number hash parents headers with
  | zero => simp [SnapshotEnv.search] at h
  | succ fuel ih =>
    unfold SnapshotEnv.search at h
    rcases hf : env.found number hash with _ | ⟨e | found⟩
    · -- nothing found here: the header is gathered and the search goes on at its parent
      rw [hf] at h
      simp only at h
      rcases hg : env.gather number hash parents with e | ⟨header, parents'⟩
      · rw [hg] at h
        cases h
      · rw [hg] at h
        obtain ⟨new, rfl, hnew, -⟩ := ih h
        obtain ⟨hnum, hhash⟩ := env.gather_eq_ok hm hg
        exact ⟨header :: new, by simp, ⟨hnum, hhash, hnew⟩, fun hnil => absurd hnil (List.cons_ne_nil _ _)⟩
    · rw [hf] at h
      cases h
    · rw [hf] at h
      simp only [Option.some.injEq, Except.ok.injEq, Prod.mk.injEq] at h
      obtain ⟨rfl, rfl⟩ := h
      exact ⟨[], by simp, trivial, fun _ => rfl⟩

/-- A snapshot `snapshot` returns is either the one found at the requested block, or, when it applied `k > 0`
gathered headers, one with the block's hash and the number `number - (k - 1)`. -/
theorem SnapshotEnv.snapshot_eq_ok (hm : env.HeadersMatch) {fuel : Nat} {number : UInt64} {hash : List UInt8}
    {parents : List ChainHeader} {s : SignerSnapshot} (h : env.snapshot fuel number hash parents = some (.ok s)) :
    env.found number hash = some (.ok s) ∨
      ∃ k, 0 < k ∧ s.hash = hash ∧ s.number = number - UInt64.ofNat (k - 1) := by
  unfold SnapshotEnv.snapshot at h
  obtain ⟨r, hr, h⟩ := Option.map_eq_some_iff.mp h
  rcases r with e | ⟨snap, headers⟩
  · cases h
  obtain ⟨new, hnew, hgathered, hfound⟩ := env.search_eq_ok hm hr
  rw [List.nil_append] at hnew
  subst hnew
  obtain ⟨_, hpair, h⟩ := except_bind_eq_ok.mp h
  cases hpair
  dsimp only at h
  obtain ⟨applied, happly, h⟩ := except_bind_eq_ok.mp h
  -- the store of a checkpoint either fails or returns the applied snapshot
  have hs : s = applied := by
    split_ifs at h <;> cases h <;> rfl
  subst hs
  cases headers with
  | nil =>
    left
    simp only [List.reverse_nil, SignerSnapshot.apply, pure, Except.pure, Except.ok.injEq] at happly
    rw [← happly]
    exact hfound rfl
  | cons g gs =>
    right
    have hne : (g :: gs).reverse ≠ [] := by simp
    obtain ⟨hnum, hhash⟩ := SignerSnapshot.apply_eq_ok_of_ne_nil hne happly
    refine ⟨(g :: gs).length, by simp, ?_, ?_⟩
    · rw [hhash, List.getLast_reverse]
      exact hgathered.2.1
    · rw [hnum, List.head_reverse]
      exact hgathered.getLast_number (List.cons_ne_nil g gs)

end Search

/-! ## The confirmed block -/

/-- The distinct witnesses of the blocks of `seen` in cycle `c`. -/
def witnessesIn (seen : List ChainHeader) (c : UInt64) : Finset (List UInt8) :=
  ((seen.filter fun y => y.time / epoch = c).map ChainHeader.witness).toFinset

/-- The block the confirmation is meant to pick: walking back from the head while the block is above the confirmed
one and is not it, the first block whose cycle has `size` distinct witnesses among it and the blocks walked before
it, and the confirmed one if there is none. `seen` holds the blocks walked so far, the last one first. -/
def confirmTarget (size : Nat) (confirmed : ChainHeader) : List ChainHeader → List ChainHeader → ChainHeader
  | _, [] => confirmed
  | seen, b :: rest =>
    if b.hash ≠ confirmed.hash ∧ confirmed.number < b.number then
      if size ≤ (witnessesIn (b :: seen) (b.time / epoch)).card then b
      else confirmTarget size confirmed (b :: seen) rest
    else confirmed

/-- Each header of the list is followed by its parent, one number below it and not later, as `verifyHeader` makes
them. -/
def ParentLinked : List ChainHeader → Prop
  | b :: p :: rest => p.number.toNat + 1 = b.number.toNat ∧ p.time ≤ b.time ∧ ParentLinked (p :: rest)
  | _ => True

/-- What the loop has counted after walking `seen`: the witnesses of the last block's cycle. -/
def Counted (seen : List ChainHeader) (cycle : UInt64) (witnessMap : Finset (List UInt8)) : Prop :=
  match seen with
  | [] => witnessMap = ∅
  | x :: _ => x.time / epoch = cycle ∧ witnessMap = witnessesIn seen cycle

/-- A cycle as a number: the time divided by `epoch`. -/
theorem toNat_cycle (t : UInt64) : (t / epoch).toNat = t.toNat / 600 := by
  simp [epoch, UInt64.toNat_div]

@[simp] theorem witnessesIn_nil (c : UInt64) : witnessesIn [] c = ∅ := rfl

theorem witnessesIn_cons_self (b : ChainHeader) (seen : List ChainHeader) :
    witnessesIn (b :: seen) (b.time / epoch) = insert b.witness (witnessesIn seen (b.time / epoch)) := by
  simp [witnessesIn]

/-- No block of a later cycle counts for `c`. -/
theorem witnessesIn_eq_empty {seen : List ChainHeader} {c : UInt64}
    (h : ∀ y ∈ seen, c.toNat < (y.time / epoch).toNat) : witnessesIn seen c = ∅ := by
  rw [witnessesIn, List.toFinset_eq_empty_iff, List.map_eq_nil_iff, List.filter_eq_nil_iff]
  intro y hy hc
  have := h y hy
  rw [of_decide_eq_true hc] at this
  exact absurd this (lt_irrefl _)

section Confirm

variable {size : Nat} {confirmed : ChainHeader}

/-- The map the loop holds at block `b`, after the reset of a new cycle, is the witnesses of `b`'s cycle among the
blocks walked: walking back, a cycle once left does not come again. -/
theorem counted_reset {seen : List ChainHeader} {cycle : UInt64} {witnessMap : Finset (List UInt8)} {b : ChainHeader}
    (hc : Counted seen cycle witnessMap) (hsorted : seen.Pairwise fun a c => a.time ≤ c.time)
    (habove : ∀ y ∈ seen, b.time ≤ y.time) :
    (if b.time / epoch ≠ cycle then ((b.time / epoch, ∅) : UInt64 × Finset (List UInt8)) else (cycle, witnessMap)) =
      (b.time / epoch, witnessesIn seen (b.time / epoch)) := by
  cases seen with
  | nil =>
    simp only [Counted] at hc
    split_ifs with hb
    · rfl
    · simp only [not_not] at hb
      simp [hb, hc]
  | cons x xs =>
    obtain ⟨hx, rfl⟩ := hc
    by_cases hb : b.time / epoch = cycle
    · simp [hb]
    · -- an earlier cycle: every block walked is in `x`'s cycle or a later one
      rw [if_pos hb, Prod.mk.injEq]
      refine ⟨rfl, ?_⟩
      have hbx := UInt64.le_iff_toNat_le.mp (habove x List.mem_cons_self)
      have hne : (b.time / epoch).toNat ≠ cycle.toNat := fun h => hb (UInt64.toNat_inj.mp h)
      rw [← hx, toNat_cycle, toNat_cycle] at hne
      refine (witnessesIn_eq_empty fun y hy => ?_).symm
      rw [toNat_cycle, toNat_cycle]
      rcases List.mem_cons.mp hy with rfl | hy
      · omega
      · have hxy := UInt64.le_iff_toNat_le.mp (List.rel_of_pairwise_cons hsorted hy)
        have : x.time.toNat / 600 ≤ y.time.toNat / 600 := Nat.div_le_div_right hxy
        have : b.time.toNat / 600 ≤ x.time.toNat / 600 := Nat.div_le_div_right hbx
        omega

/-- One block further down, the witnesses of its cycle are at most one more than those of the cycle before. -/
theorem card_witnessesIn_parent_le {seen : List ChainHeader} {b p : ChainHeader}
    (habove : ∀ y ∈ seen, b.time ≤ y.time) (hpb : p.time ≤ b.time) :
    (witnessesIn (b :: seen) (p.time / epoch)).card ≤ (witnessesIn seen (b.time / epoch)).card + 1 := by
  by_cases hc : p.time / epoch = b.time / epoch
  · rw [hc, witnessesIn_cons_self]
    exact Finset.card_insert_le _ _
  · have hne : (p.time / epoch).toNat ≠ (b.time / epoch).toNat := fun h => hc (UInt64.toNat_inj.mp h)
    have hpb' := UInt64.le_iff_toNat_le.mp hpb
    rw [toNat_cycle, toNat_cycle] at hne
    have hle : p.time.toNat / 600 ≤ b.time.toNat / 600 := Nat.div_le_div_right hpb'
    rw [witnessesIn_eq_empty fun y hy => ?_]
    · simp
    rw [toNat_cycle, toNat_cycle]
    rcases List.mem_cons.mp hy with rfl | hy
    · omega
    · have : b.time.toNat / 600 ≤ y.time.toNat / 600 :=
        Nat.div_le_div_right (UInt64.le_iff_toNat_le.mp (habove y hy))
      omega

/-- A block above the confirmed one, of a cycle whose witnesses so far and the blocks left fall short of `size`,
is not confirmed: it brings at most one witness. -/
theorem card_witnessesIn_self_lt {b : ChainHeader} {seen : List ChainHeader} (hwalk : confirmed.number < b.number)
    (hfew : (b.number.toNat : Int) - confirmed.number.toNat + (witnessesIn seen (b.time / epoch)).card < size) :
    (witnessesIn (b :: seen) (b.time / epoch)).card < size := by
  have hle := Finset.card_insert_le b.witness (witnessesIn seen (b.time / epoch))
  rw [← witnessesIn_cons_self] at hle
  have := UInt64.lt_iff_toNat_lt.mp hwalk
  omega

/-- When the blocks left above the confirmed one, with the witnesses already counted, fall short of `size`, no block
further down is confirmed: each one adds at most one witness. -/
theorem confirmTarget_of_few {b : ChainHeader} {rest seen : List ChainHeader} (hlinked : ParentLinked (b :: rest))
    (habove : ∀ y ∈ seen, b.time ≤ y.time)
    (hfew : (b.number.toNat : Int) - confirmed.number.toNat + (witnessesIn seen (b.time / epoch)).card < size) :
    confirmTarget size confirmed seen (b :: rest) = confirmed := by
  induction rest generalizing b seen with
  | nil =>
    rw [confirmTarget]
    split_ifs with hwalk hsize
    · exact absurd hsize (not_le.mpr (card_witnessesIn_self_lt hwalk.2 hfew))
    · rfl
    · rfl
  | cons p rest ih =>
    obtain ⟨hnum, hpb, hlinked⟩ := hlinked
    rw [confirmTarget]
    split_ifs with hwalk hsize
    · exact absurd hsize (not_le.mpr (card_witnessesIn_self_lt hwalk.2 hfew))
    · -- the same bound one block further down
      refine ih hlinked (fun y hy => ?_) ?_
      · rcases List.mem_cons.mp hy with rfl | hy
        · exact hpb
        · exact UInt64.le_trans hpb (habove y hy)
      · have hle := card_witnessesIn_parent_le habove hpb
        omega
    · rfl

/-- One block of the loop: it stops where `confirmTarget` stops, with the block `confirmTarget` names, or it goes on
to the parent having counted the block, and so does `confirmTarget`. -/
theorem confirmLoop_step {b : ChainHeader} {rest seen : List ChainHeader} {cycle : UInt64}
    {witnessMap : Finset (List UInt8)} {c : ChainHeader} (hlinked : ParentLinked (b :: rest))
    (hsorted : seen.Pairwise fun a c => a.time ≤ c.time) (habove : ∀ y ∈ seen, b.time ≤ y.time)
    (hc : Counted seen cycle witnessMap) (h : confirmLoop size confirmed (b :: rest) cycle witnessMap = some c) :
    c = confirmTarget size confirmed seen (b :: rest) ∨
      (confirmLoop size confirmed rest (b.time / epoch) (witnessesIn (b :: seen) (b.time / epoch)) = some c ∧
        confirmTarget size confirmed seen (b :: rest) = confirmTarget size confirmed (b :: seen) rest) := by
  rw [confirmLoop] at h
  by_cases hwalk : b.hash ≠ confirmed.hash ∧ confirmed.number < b.number
  swap
  · rw [if_neg hwalk] at h
    rw [confirmTarget, if_neg hwalk]
    exact .inl (Option.some.inj h).symm
  rw [if_pos hwalk] at h
  dsimp only at h
  rw [counted_reset hc hsorted habove] at h
  dsimp only at h
  split_ifs at h with hfast hsize
  · -- the fast return is right: no block from here down is confirmed
    cases h
    exact .inl (confirmTarget_of_few hlinked habove (by omega)).symm
  · cases h
    rw [← witnessesIn_cons_self] at hsize
    left
    rw [confirmTarget, if_pos hwalk, if_pos hsize]
  · rw [← witnessesIn_cons_self] at hsize h
    right
    refine ⟨h, ?_⟩
    rw [confirmTarget, if_pos hwalk, if_neg (not_le.mpr (lt_of_not_ge hsize))]

/-- The same block for the loop without the fast return. -/
theorem confirmLoopNoFastReturn_step {b : ChainHeader} {rest seen : List ChainHeader} {cycle : UInt64}
    {witnessMap : Finset (List UInt8)} {c : ChainHeader}
    (hsorted : seen.Pairwise fun a c => a.time ≤ c.time) (habove : ∀ y ∈ seen, b.time ≤ y.time)
    (hc : Counted seen cycle witnessMap)
    (h : confirmLoopNoFastReturn size confirmed (b :: rest) cycle witnessMap = some c) :
    c = confirmTarget size confirmed seen (b :: rest) ∨
      (confirmLoopNoFastReturn size confirmed rest (b.time / epoch) (witnessesIn (b :: seen) (b.time / epoch)) =
          some c ∧
        confirmTarget size confirmed seen (b :: rest) = confirmTarget size confirmed (b :: seen) rest) := by
  rw [confirmLoopNoFastReturn] at h
  by_cases hwalk : b.hash ≠ confirmed.hash ∧ confirmed.number < b.number
  swap
  · rw [if_neg hwalk] at h
    rw [confirmTarget, if_neg hwalk]
    exact .inl (Option.some.inj h).symm
  rw [if_pos hwalk] at h
  dsimp only at h
  rw [counted_reset hc hsorted habove] at h
  dsimp only at h
  rw [← witnessesIn_cons_self] at h
  split_ifs at h with hsize
  · cases h
    left
    rw [confirmTarget, if_pos hwalk, if_pos hsize]
  · right
    refine ⟨h, ?_⟩
    rw [confirmTarget, if_pos hwalk, if_neg hsize]

/-- Counting a block keeps what the loop knows of the walk: the blocks walked stay ordered by time, all no earlier
than the parent, and the map is the witnesses of the block's cycle. -/
theorem walked_cons {b p : ChainHeader} {seen : List ChainHeader}
    (hsorted : seen.Pairwise fun a c => a.time ≤ c.time) (habove : ∀ y ∈ seen, b.time ≤ y.time)
    (hpb : p.time ≤ b.time) :
    ((b :: seen).Pairwise fun a c => a.time ≤ c.time) ∧ (∀ y ∈ b :: seen, p.time ≤ y.time) ∧
      Counted (b :: seen) (b.time / epoch) (witnessesIn (b :: seen) (b.time / epoch)) := by
  refine ⟨List.pairwise_cons.mpr ⟨habove, hsorted⟩, fun y hy => ?_, rfl, rfl⟩
  rcases List.mem_cons.mp hy with rfl | hy
  · exact hpb
  · exact UInt64.le_trans hpb (habove y hy)

/-- The loop confirms the block `confirmTarget` names, from any point of the walk where it has counted the blocks
walked. -/
theorem confirmLoop_eq_target {b : ChainHeader} {rest seen : List ChainHeader} {cycle : UInt64}
    {witnessMap : Finset (List UInt8)} {c : ChainHeader} (hlinked : ParentLinked (b :: rest))
    (hsorted : seen.Pairwise fun a c => a.time ≤ c.time) (habove : ∀ y ∈ seen, b.time ≤ y.time)
    (hc : Counted seen cycle witnessMap) (h : confirmLoop size confirmed (b :: rest) cycle witnessMap = some c) :
    c = confirmTarget size confirmed seen (b :: rest) := by
  induction rest generalizing b seen cycle witnessMap with
  | nil =>
    rcases confirmLoop_step hlinked hsorted habove hc h with h | ⟨h, -⟩
    · exact h
    · cases h
  | cons p rest ih =>
    rcases confirmLoop_step hlinked hsorted habove hc h with h | ⟨h, htarget⟩
    · exact h
    · obtain ⟨-, hpb, hlinked⟩ := hlinked
      obtain ⟨hsorted', habove', hc'⟩ := walked_cons hsorted habove hpb
      rw [htarget]
      exact ih hlinked hsorted' habove' hc' h

theorem confirmLoopNoFastReturn_eq_target {b : ChainHeader} {rest seen : List ChainHeader} {cycle : UInt64}
    {witnessMap : Finset (List UInt8)} {c : ChainHeader} (hlinked : ParentLinked (b :: rest))
    (hsorted : seen.Pairwise fun a c => a.time ≤ c.time) (habove : ∀ y ∈ seen, b.time ≤ y.time)
    (hc : Counted seen cycle witnessMap)
    (h : confirmLoopNoFastReturn size confirmed (b :: rest) cycle witnessMap = some c) :
    c = confirmTarget size confirmed seen (b :: rest) := by
  induction rest generalizing b seen cycle witnessMap with
  | nil =>
    rcases confirmLoopNoFastReturn_step hsorted habove hc h with h | ⟨h, -⟩
    · exact h
    · cases h
  | cons p rest ih =>
    rcases confirmLoopNoFastReturn_step hsorted habove hc h with h | ⟨h, htarget⟩
    · exact h
    · obtain ⟨-, hpb, hlinked⟩ := hlinked
      obtain ⟨hsorted', habove', hc'⟩ := walked_cons hsorted habove hpb
      rw [htarget]
      exact ih hlinked hsorted' habove' hc' h

/-- The block `confirmTarget` names is the confirmed one or above it. -/
theorem confirmTarget_number_ge (seen path : List ChainHeader) :
    confirmed.number ≤ (confirmTarget size confirmed seen path).number := by
  induction path generalizing seen with
  | nil => exact UInt64.le_refl _
  | cons b rest ih =>
    rw [confirmTarget]
    split_ifs with hwalk
    · exact UInt64.le_of_lt hwalk.2
    · exact ih _
    · exact UInt64.le_refl _

end Confirm

end Etherzero.Devote
