import Mathlib
import Etherzero.Les.Flowcontrol

/-!
# The buffer values of LES flow control, and where they wrap

What holds for any parameters a server announces, and any clock:

- the server's value of a client never leaves `[0, BufLimit]`, over every run of calls (`ClientNode.Bounded.run`);
- without overflow, a recharge adds `min(BufLimit - v, MinRecharge*dt/1ms)` (`recharge_toNat`);
- a charge within the recharged value `R` leaves `max(R - cost, BufLimit -sat rcValue)`
  (`ClientNode.requestProcessed_toNat_of_le`);
- the client's estimate stays within `BufLimit` along calls that queue no more than it holds
  (`ServerNode.Bounded.run`), and a reply sets it to its value less the costs queued after its request
  (`ServerNode.gotReply_after_queue`);
- `canSend` panics exactly when `MinRecharge` is 0 and the capped cost is above the estimate
  (`ServerNode.canSend_eq_none_iff`).

Nothing checks the parameters or the costs, so each of these fails at some input: the recharge product wraps, a
charge above the buffer wraps and the cap then refills it, a queued cost above the estimate wraps it far above
`BufLimit`, and a server that announces `MinRecharge = 0` makes the client's second `canSend` divide by zero.
-/

namespace Etherzero.Flowcontrol

/-! ## Caps and the recharge -/

variable {params : ServerParams} {v : UInt64} {lastTime time : Nat}

/-- Go's cap `if x > b { x = b }`, read on the numbers. -/
theorem cap_toNat (x b : UInt64) : (if x > b then b else x).toNat = min x.toNat b.toNat := by
  split
  · rename_i h
    have := UInt64.lt_iff_toNat_lt.mp h
    omega
  · rename_i h
    have := UInt64.le_iff_toNat_le.mp (UInt64.not_lt.mp h)
    omega

theorem cap_le (x b : UInt64) : (if x > b then b else x) ≤ b := by
  rw [UInt64.le_iff_toNat_le, cap_toNat]
  exact min_le_right _ _

theorem recharge_le (params : ServerParams) (v : UInt64) (lastTime time : Nat) :
    recharge params v lastTime time ≤ params.bufLimit :=
  cap_le _ _

theorem recharge_self (params : ServerParams) (v : UInt64) (time : Nat) :
    recharge params v time time = if v > params.bufLimit then params.bufLimit else v := by
  simp [recharge]

theorem fcTimeConst_toNat : fcTimeConst.toNat = 1000000 := rfl

theorem recharge_toNat (hv : v ≤ params.bufLimit) (hle : lastTime ≤ time)
    (hmul : params.minRecharge.toNat * (time - lastTime) < 2 ^ 64)
    (hsum : v.toNat + params.minRecharge.toNat * (time - lastTime) / 1000000 < 2 ^ 64) :
    (recharge params v lastTime time).toNat =
      v.toNat + min (params.bufLimit.toNat - v.toNat) (params.minRecharge.toNat * (time - lastTime) / 1000000) := by
  have hdt : (params.minRecharge * UInt64.ofNat (time - lastTime)).toNat = params.minRecharge.toNat * (time - lastTime) := by
    rw [UInt64.toNat_mul, UInt64.toNat_ofNat']
    rcases Nat.eq_zero_or_pos params.minRecharge.toNat with h0 | hpos
    · simp [h0]
    · have : time - lastTime < 2 ^ 64 := lt_of_le_of_lt (Nat.le_mul_of_pos_left _ hpos) hmul
      rw [Nat.mod_eq_of_lt this, Nat.mod_eq_of_lt hmul]
  have hadd : (v + params.minRecharge * UInt64.ofNat (time - lastTime) / fcTimeConst).toNat =
      v.toNat + params.minRecharge.toNat * (time - lastTime) / 1000000 := by
    rw [UInt64.toNat_add, UInt64.toNat_div, hdt, fcTimeConst_toNat, Nat.mod_eq_of_lt hsum]
  have hv' := UInt64.le_iff_toNat_le.mp hv
  rw [recharge, if_neg (show ¬time < lastTime by omega), cap_toNat, hadd]
  omega

/-! ## ClientNode -/

namespace ClientNode

variable (peer : ClientNode) (time : Nat) (cost rcValue rcost : UInt64)

@[simp] theorem recalcBV_params : (peer.recalcBV time).params = peer.params := rfl
@[simp] theorem recalcBV_bufValue :
    (peer.recalcBV time).bufValue = recharge peer.params peer.bufValue peer.lastTime time := rfl
@[simp] theorem recalcBV_lastTime : (peer.recalcBV time).lastTime = time := rfl

/-- What `RequestProcessed` leaves: `w` is the value recharged, charged and recharged again at the same time, and the
value is raised to `BufLimit - rcValue` if that is more. -/
theorem requestProcessed_eq :
    peer.requestProcessed time cost rcValue rcost =
      let w := recharge peer.params (recharge peer.params peer.bufValue peer.lastTime time - cost) time time
      let bv := if rcValue < peer.params.bufLimit ∧ peer.params.bufLimit - rcValue > w then
        peer.params.bufLimit - rcValue else w
      ({ peer with bufValue := bv, lastTime := time }, bv, rcost) := by
  simp only [requestProcessed, recalcBV]
  by_cases h₁ : rcValue < peer.params.bufLimit <;>
    by_cases h₂ : peer.params.bufLimit - rcValue >
      recharge peer.params (recharge peer.params peer.bufValue peer.lastTime time - cost) time time <;>
    simp [h₁, h₂]

/-- The value `RequestProcessed` returns and leaves. -/
theorem requestProcessed_bufValue :
    (peer.requestProcessed time cost rcValue rcost).1.bufValue = (peer.requestProcessed time cost rcValue rcost).2.1 := by
  rw [requestProcessed_eq]

theorem requestProcessed_params : (peer.requestProcessed time cost rcValue rcost).1.params = peer.params := by
  rw [requestProcessed_eq]

/-- Where the charge fits the recharged value `R`, `RequestProcessed` leaves `max(R - cost, BufLimit -sat rcValue)`. -/
theorem requestProcessed_toNat_of_le (hcost : cost ≤ (peer.recalcBV time).bufValue) :
    (peer.requestProcessed time cost rcValue rcost).2.1.toNat =
      max ((peer.recalcBV time).bufValue.toNat - cost.toNat) (peer.params.bufLimit.toNat - rcValue.toNat) := by
  have hR := UInt64.le_iff_toNat_le.mp (recharge_le peer.params peer.bufValue peer.lastTime time)
  have hc := UInt64.le_iff_toNat_le.mp hcost
  rw [recalcBV_bufValue] at hcost hc ⊢
  -- the charge leaves `R - cost`, which the recharge at the same time keeps
  have hw : (recharge peer.params (recharge peer.params peer.bufValue peer.lastTime time - cost) time time).toNat =
      (recharge peer.params peer.bufValue peer.lastTime time).toNat - cost.toNat := by
    rw [recharge_self, cap_toNat, UInt64.toNat_sub_of_le _ _ hcost]
    omega
  rw [requestProcessed_eq]
  dsimp only
  split
  · rename_i h
    have h₁ := UInt64.lt_iff_toNat_lt.mp h.1
    have h₂ := UInt64.lt_iff_toNat_lt.mp h.2
    rw [UInt64.toNat_sub_of_le _ _ (UInt64.le_of_lt h.1)] at h₂ ⊢
    omega
  · rename_i h
    rw [hw]
    by_cases h₁ : rcValue < peer.params.bufLimit
    · have h₂ := UInt64.le_iff_toNat_le.mp (UInt64.not_lt.mp fun h₂ => h ⟨h₁, h₂⟩)
      rw [UInt64.toNat_sub_of_le _ _ (UInt64.le_of_lt h₁), hw] at h₂
      omega
    · have := UInt64.le_iff_toNat_le.mp (UInt64.not_lt.mp h₁)
      omega

/-- A charge above the recharged value `R` wraps: `R - cost` is `2^64 - (cost - R)`, which is above `BufLimit`
unless the cost is within `2^64 - BufLimit` of `R`, and the recharge caps it to `BufLimit`. -/
theorem requestProcessed_of_lt (hcost : (peer.recalcBV time).bufValue < cost)
    (hwrap : peer.params.bufLimit.toNat < 2 ^ 64 + (peer.recalcBV time).bufValue.toNat - cost.toNat) :
    (peer.requestProcessed time cost rcValue rcost).2.1 = peer.params.bufLimit := by
  rw [recalcBV_bufValue] at hcost hwrap
  have hgt : recharge peer.params peer.bufValue peer.lastTime time - cost > peer.params.bufLimit := by
    rw [gt_iff_lt, UInt64.lt_iff_toNat_lt, UInt64.toNat_sub]
    have := UInt64.lt_iff_toNat_lt.mp hcost
    have := UInt64.toNat_lt cost
    omega
  rw [requestProcessed_eq]
  dsimp only
  rw [recharge_self, if_pos hgt, if_neg]
  rintro ⟨h₁, h₂⟩
  have h₃ := UInt64.lt_iff_toNat_lt.mp h₂
  rw [UInt64.toNat_sub_of_le _ _ (UInt64.le_of_lt h₁)] at h₃
  omega

/-! ### Every call keeps the buffer within `BufLimit` -/

/-- The buffer value lies within `BufLimit`. -/
def Bounded (peer : ClientNode) : Prop := peer.bufValue ≤ peer.params.bufLimit

theorem bounded_newClientNode (params : ServerParams) (now : Nat) : (newClientNode params now).Bounded :=
  UInt64.le_refl _

theorem bounded_recalcBV : (peer.recalcBV time).Bounded := recharge_le _ _ _ _

theorem bounded_requestProcessed : (peer.requestProcessed time cost rcValue rcost).1.Bounded := by
  rw [Bounded, requestProcessed_bufValue, requestProcessed_params, requestProcessed_eq]
  dsimp only
  split
  · rename_i h
    rw [UInt64.le_iff_toNat_le, UInt64.toNat_sub_of_le _ _ (UInt64.le_of_lt h.1)]
    omega
  · exact recharge_le _ _ _ _

theorem call_params (c : ClientCall) : (peer.call c).params = peer.params := by
  cases c with
  | accept time accepted => rfl
  | processed time cost rcValue rcost => exact requestProcessed_params ..

/-- The step lemma: whatever the node held, a call leaves it within `BufLimit`, with its parameters. -/
theorem bounded_call (c : ClientCall) : (peer.call c).Bounded := by
  cases c with
  | accept time accepted => exact bounded_recalcBV ..
  | processed time cost rcValue rcost => exact bounded_requestProcessed ..

/-- The run lemma: from a node within `BufLimit`, every sequence of calls, at any clock readings and with any answers
of the manager, keeps it there. -/
theorem Bounded.run {peer : ClientNode} (h : peer.Bounded) (calls : List ClientCall) : (peer.run calls).Bounded := by
  induction calls generalizing peer with
  | nil => exact h
  | cons c cs ih => exact ih (bounded_call peer c)

theorem run_params (calls : List ClientCall) : (peer.run calls).params = peer.params := by
  induction calls generalizing peer with
  | nil => rfl
  | cons c cs ih => exact (ih _).trans (call_params peer c)

end ClientNode

/-! ## The admission check of handleMsg -/

section Reject

variable {defParams : ServerParams} {costs : RequestCosts} {peer peer' : ClientNode} {time : Nat} {accepted : Bool}
  {reqCnt maxCnt : UInt64}

/-- `reject` on a client with a node: the count is checked first, then the capped cost against the value
`AcceptRequest` recharged. -/
theorem reject_some :
    reject defParams costs (some peer) time accepted reqCnt maxCnt =
      if reqCnt > maxCnt then some (some peer, true)
      else if (if costs.baseCost + reqCnt * costs.reqCost > defParams.bufLimit then defParams.bufLimit
          else costs.baseCost + reqCnt * costs.reqCost) > (peer.recalcBV time).bufValue then
        if defParams.minRecharge = 0 then none else some (some (peer.recalcBV time), true)
      else some (some (peer.recalcBV time), false) := rfl

/-- A request `reject` lets through had a count within `maxCnt` and its cost, capped at the server's `BufLimit`,
within the value `AcceptRequest` recharged. -/
theorem reject_eq_false (h : reject defParams costs (some peer) time accepted reqCnt maxCnt = some (some peer', false)) :
    peer' = peer.recalcBV time ∧ reqCnt ≤ maxCnt ∧
      (if costs.baseCost + reqCnt * costs.reqCost > defParams.bufLimit then defParams.bufLimit
        else costs.baseCost + reqCnt * costs.reqCost) ≤ peer'.bufValue := by
  rw [reject_some] at h
  generalize (if costs.baseCost + reqCnt * costs.reqCost > defParams.bufLimit then defParams.bufLimit
    else costs.baseCost + reqCnt * costs.reqCost) = cost at h ⊢
  by_cases h₁ : reqCnt > maxCnt
  · rw [if_pos h₁] at h
    cases h
  rw [if_neg h₁] at h
  by_cases h₂ : cost > (peer.recalcBV time).bufValue
  · -- rejected, or the log line panics
    rw [if_pos h₂] at h
    split at h <;> cases h
  · rw [if_neg h₂] at h
    cases h
    exact ⟨rfl, UInt64.not_lt.mp h₁, UInt64.not_lt.mp h₂⟩

end Reject

/-- With a `MinRecharge` of its own that is not 0, the server's check never panics. -/
theorem reject_isSome {defParams : ServerParams} (costs : RequestCosts) (fcClient : Option ClientNode) (time : Nat)
    (accepted : Bool) (reqCnt maxCnt : UInt64) (h : defParams.minRecharge ≠ 0) :
    (reject defParams costs fcClient time accepted reqCnt maxCnt).isSome := by
  cases fcClient with
  | none => rfl
  | some peer =>
    rw [reject_some]
    split_ifs <;> trivial

/-! ## ServerNode -/

namespace ServerNode

variable (peer : ServerNode) (time : Nat) (reqID maxCost bv : UInt64)

@[simp] theorem recalcBLE_params : (peer.recalcBLE time).params = peer.params := rfl
@[simp] theorem recalcBLE_bufEstimate :
    (peer.recalcBLE time).bufEstimate = recharge peer.params peer.bufEstimate peer.lastTime time := rfl
@[simp] theorem recalcBLE_sumCost : (peer.recalcBLE time).sumCost = peer.sumCost := rfl
@[simp] theorem recalcBLE_pending : (peer.recalcBLE time).pending = peer.pending := rfl

@[simp] theorem queueRequest_params : (peer.queueRequest reqID maxCost).params = peer.params := rfl
@[simp] theorem queueRequest_bufEstimate : (peer.queueRequest reqID maxCost).bufEstimate = peer.bufEstimate - maxCost :=
  rfl
@[simp] theorem queueRequest_sumCost : (peer.queueRequest reqID maxCost).sumCost = peer.sumCost + maxCost := rfl
@[simp] theorem queueRequest_pending :
    (peer.queueRequest reqID maxCost).pending = Function.update peer.pending reqID (some (peer.sumCost + maxCost)) :=
  rfl

/-- The cost `canSend` checks: `maxCost` with the safety margin's recharge, capped at `BufLimit`. -/
def checkedCost (params : ServerParams) (maxCost : UInt64) : UInt64 :=
  let maxCost := maxCost + safetyMargin * params.minRecharge / fcTimeConst
  if maxCost > params.bufLimit then params.bufLimit else maxCost

/-- `canSend` recharges the estimate, and answers from the estimate and the checked cost. -/
theorem canSend_eq :
    peer.canSend time maxCost =
      let p := peer.recalcBLE time
      let c := checkedCost peer.params maxCost
      if p.bufEstimate ≥ c then (p, some (0, (p.bufEstimate - c).toFloat / peer.params.bufLimit.toFloat))
      else if peer.params.minRecharge = 0 then (p, none)
      else (p, some (((c - p.bufEstimate) * fcTimeConst / peer.params.minRecharge).toInt64, 0)) := rfl

theorem canSend_fst : (peer.canSend time maxCost).1 = peer.recalcBLE time := by
  rw [canSend_eq]
  dsimp only
  split_ifs <;> rfl

/-- `canSend` panics exactly when `MinRecharge` is 0 and the capped cost is above the recharged estimate. -/
theorem canSend_eq_none_iff :
    (peer.canSend time maxCost).2 = none ↔
      peer.params.minRecharge = 0 ∧ (peer.recalcBLE time).bufEstimate < checkedCost peer.params maxCost := by
  rw [canSend_eq]
  dsimp only
  split_ifs with h₁ h₂
  · simp only [false_iff, not_and]
    intro _ h
    exact UInt64.not_lt.mpr h₁ h
  · simp only [true_iff]
    exact ⟨h₂, UInt64.not_le.mp h₁⟩
  · simp only [false_iff, not_and]
    exact fun h => absurd h h₂

/-- A wait of 0 means the capped cost fits the recharged estimate, or its shortfall is less than what recharges in a
nanosecond, as long as the shortfall in nanoseconds of recharge does not wrap. -/
theorem canSend_zero_wait {f : Float} (h : (peer.canSend time maxCost).2 = some (0, f))
    (hwrap : (checkedCost peer.params maxCost).toNat * 1000000 < 2 ^ 64) :
    checkedCost peer.params maxCost ≤ (peer.recalcBLE time).bufEstimate ∨
      ((checkedCost peer.params maxCost).toNat - (peer.recalcBLE time).bufEstimate.toNat) * 1000000 <
        peer.params.minRecharge.toNat := by
  rw [canSend_eq] at h
  dsimp only at h
  split_ifs at h with h₁ h₂
  · exact .inl h₁
  · right
    have hz : (checkedCost peer.params maxCost - (peer.recalcBLE time).bufEstimate) * fcTimeConst /
        peer.params.minRecharge = 0 :=
      (congrArg Int64.toUInt64 (Prod.mk.inj (Option.some.inj h)).1).trans rfl
    have hlt := UInt64.lt_iff_toNat_lt.mp (UInt64.not_le.mp h₁)
    have hpos : 0 < peer.params.minRecharge.toNat := by
      rcases Nat.eq_zero_or_pos peer.params.minRecharge.toNat with h0 | h0
      · exact absurd (UInt64.toNat_inj.mp (h0.trans rfl)) h₂
      · exact h0
    have hm : ((checkedCost peer.params maxCost).toNat - (peer.recalcBLE time).bufEstimate.toNat) * 1000000 <
        2 ^ 64 := lt_of_le_of_lt (Nat.mul_le_mul_right _ (Nat.sub_le _ _)) hwrap
    rw [UInt64.ext_iff, UInt64.toNat_div, UInt64.toNat_mul, UInt64.toNat_sub_of_le _ _ (UInt64.le_of_lt
      (UInt64.not_le.mp h₁)), fcTimeConst_toNat, Nat.mod_eq_of_lt hm, UInt64.toNat_zero] at hz
    exact (Nat.div_eq_zero_iff_lt hpos).mp hz

/-- A queued cost within the estimate is taken off it. -/
theorem queueRequest_toNat_of_le (h : maxCost ≤ peer.bufEstimate) :
    (peer.queueRequest reqID maxCost).bufEstimate.toNat = peer.bufEstimate.toNat - maxCost.toNat := by
  rw [queueRequest_bufEstimate, UInt64.toNat_sub_of_le _ _ h]

/-- A queued cost above the estimate wraps it to `2^64 - (maxCost - bufEstimate)`. -/
theorem queueRequest_toNat_of_lt (h : peer.bufEstimate < maxCost) :
    (peer.queueRequest reqID maxCost).bufEstimate.toNat = 2 ^ 64 + peer.bufEstimate.toNat - maxCost.toNat := by
  rw [queueRequest_bufEstimate, UInt64.toNat_sub]
  have := UInt64.lt_iff_toNat_lt.mp h
  have := UInt64.toNat_lt maxCost
  omega

/-- A reply to a pending request sets the estimate to its value, capped at `BufLimit`, less what was queued after the
request, or to 0; the request is no longer pending. -/
theorem gotReply_of_pending {sc : UInt64} (now : Nat) (h : peer.pending reqID = some sc) :
    (peer.gotReply reqID bv now).bufEstimate.toNat =
        min bv.toNat peer.params.bufLimit.toNat - (peer.sumCost - sc).toNat ∧
      (peer.gotReply reqID bv now).pending = Function.update peer.pending reqID none ∧
      (peer.gotReply reqID bv now).sumCost = peer.sumCost ∧ (peer.gotReply reqID bv now).params = peer.params := by
  simp only [gotReply, h, and_true]
  rw [← cap_toNat]
  generalize (if bv > peer.params.bufLimit then peer.params.bufLimit else bv) = b
  split
  · rename_i hb
    rw [UInt64.toNat_sub_of_le _ _ (UInt64.le_of_lt hb)]
  · rename_i hb
    have := UInt64.le_iff_toNat_le.mp (UInt64.not_lt.mp hb)
    rw [UInt64.toNat_zero]
    omega

/-- A reply to no pending request changes nothing. -/
theorem gotReply_of_not_pending (now : Nat) (h : peer.pending reqID = none) : peer.gotReply reqID bv now = peer := by
  simp only [gotReply, h]

/-! ### The estimate within `BufLimit` -/

/-- The estimate lies within `BufLimit`. -/
def Bounded (peer : ServerNode) : Prop := peer.bufEstimate ≤ peer.params.bufLimit

theorem bounded_newServerNode (params : ServerParams) (now : Nat) : (newServerNode params now).Bounded :=
  UInt64.le_refl _

theorem bounded_recalcBLE : (peer.recalcBLE time).Bounded := recharge_le _ _ _ _

theorem Bounded.gotReply {peer : ServerNode} (hb : peer.Bounded) (now : Nat) : (peer.gotReply reqID bv now).Bounded := by
  cases hp : peer.pending reqID with
  | none => rwa [gotReply_of_not_pending peer reqID bv now hp]
  | some sc =>
    obtain ⟨he, -, -, hparams⟩ := gotReply_of_pending peer reqID bv now hp
    rw [Bounded, UInt64.le_iff_toNat_le, he, hparams]
    omega

theorem Bounded.queueRequest {peer : ServerNode} (hb : peer.Bounded) (h : maxCost ≤ peer.bufEstimate) :
    (peer.queueRequest reqID maxCost).Bounded := by
  have := UInt64.le_iff_toNat_le.mp hb
  rw [Bounded, UInt64.le_iff_toNat_le, queueRequest_toNat_of_le peer reqID maxCost h, queueRequest_params]
  omega

/-- A call that does not queue a cost above the estimate. -/
def Fits (peer : ServerNode) : ServerCall → Prop
  | .queueRequest _ maxCost => maxCost ≤ peer.bufEstimate
  | _ => True

/-- The step lemma: a call that fits keeps the estimate within `BufLimit`. -/
theorem Bounded.call {peer peer' : ServerNode} {c : ServerCall} (hb : peer.Bounded) (hf : peer.Fits c)
    (h : peer.call c = some peer') : peer'.Bounded := by
  cases c with
  | canSend time maxCost =>
    obtain ⟨_, -, rfl⟩ := Option.map_eq_some_iff.mp h
    rw [canSend_fst]
    exact bounded_recalcBLE _ _
  | queueRequest reqID maxCost =>
    cases h
    exact hb.queueRequest _ _ hf
  | gotReply reqID bv time =>
    cases h
    exact hb.gotReply _ _ time

/-- Every call of a sequence fits the node it reaches. -/
def FitsAll : ServerNode → List ServerCall → Prop
  | _, [] => True
  | peer, c :: cs => peer.Fits c ∧ ∀ peer', peer.call c = some peer' → FitsAll peer' cs

/-- The run lemma: along calls that each fit, the estimate stays within `BufLimit`. -/
theorem Bounded.run {peer peer' : ServerNode} {calls : List ServerCall} (hb : peer.Bounded)
    (hf : peer.FitsAll calls) (h : peer.run calls = some peer') : peer'.Bounded := by
  induction calls generalizing peer with
  | nil =>
    cases h
    exact hb
  | cons c cs ih =>
    obtain ⟨p, hc, hr⟩ := Option.bind_eq_some_iff.mp h
    exact ih (hb.call hf.1 hc) (hf.2 p hc) hr

end ServerNode

/-! ### What `GotReply` takes off -/

/-- The cost a call queues. -/
def ServerCall.queued : ServerCall → UInt64
  | .queueRequest _ maxCost => maxCost
  | _ => 0

/-- Whether a call queues request `reqID` or takes its reply. -/
def ServerCall.touches (reqID : UInt64) : ServerCall → Bool
  | .queueRequest id _ => id == reqID
  | .gotReply id _ _ => id == reqID
  | .canSend _ _ => false

theorem uint64_add_sub_right_comm (a b c : UInt64) : a + c - b = a - b + c := by
  rw [UInt64.ext_iff, UInt64.toNat_add, UInt64.toNat_sub, UInt64.toNat_sub, UInt64.toNat_add]
  have := UInt64.toNat_lt a
  have := UInt64.toNat_lt b
  have := UInt64.toNat_lt c
  omega

/-- The step lemma: a call that leaves request `reqID` alone keeps its entry, and adds what it queues to `sumCost`. -/
theorem ServerNode.pending_call {peer peer' : ServerNode} {c : ServerCall} {reqID sc : UInt64}
    (h : peer.pending reqID = some sc) (hc : c.touches reqID = false) (hr : peer.call c = some peer') :
    peer'.pending reqID = some sc ∧ peer'.sumCost = peer.sumCost + c.queued := by
  cases c with
  | canSend time maxCost =>
    obtain ⟨_, -, rfl⟩ := Option.map_eq_some_iff.mp hr
    rw [canSend_fst]
    exact ⟨h, (UInt64.add_zero _).symm⟩
  | queueRequest id maxCost =>
    cases hr
    have hne : reqID ≠ id := fun he => by simp [ServerCall.touches, he] at hc
    exact ⟨by rw [queueRequest_pending, Function.update_of_ne hne, h], rfl⟩
  | gotReply id bv time =>
    cases hr
    have hne : reqID ≠ id := fun he => by simp [ServerCall.touches, he] at hc
    cases hp : peer.pending id with
    | none =>
      rw [gotReply_of_not_pending peer id bv time hp]
      exact ⟨h, (UInt64.add_zero _).symm⟩
    | some sc' =>
      obtain ⟨-, hpend, hsum, -⟩ := gotReply_of_pending peer id bv time hp
      exact ⟨by rw [hpend, Function.update_of_ne hne, h], hsum.trans (UInt64.add_zero _).symm⟩

/-- The run lemma: along calls that leave request `reqID` alone, its entry stays, and `sumCost` less it grows by the
costs queued. -/
theorem ServerNode.pending_run {peer peer' : ServerNode} {calls : List ServerCall} {reqID sc : UInt64}
    (h : peer.pending reqID = some sc) (hc : ∀ c ∈ calls, c.touches reqID = false) (hr : peer.run calls = some peer') :
    peer'.pending reqID = some sc ∧ peer'.sumCost - sc = peer.sumCost - sc + (calls.map ServerCall.queued).sum := by
  induction calls generalizing peer with
  | nil =>
    cases hr
    exact ⟨h, (UInt64.add_zero _).symm⟩
  | cons c cs ih =>
    obtain ⟨p, hcall, hrun⟩ := Option.bind_eq_some_iff.mp hr
    obtain ⟨hp, hsum⟩ := pending_call h (hc c (List.mem_cons_self ..)) hcall
    obtain ⟨hp', hsum'⟩ := ih hp (fun c' hc' => hc c' (List.mem_cons_of_mem _ hc')) hrun
    refine ⟨hp', ?_⟩
    rw [hsum', hsum, uint64_add_sub_right_comm, List.map_cons, List.sum_cons, UInt64.add_assoc]

/-- So a reply sets the estimate to its value, capped at `BufLimit`, less the costs queued after its request (in
`uint64`), or to 0. -/
theorem ServerNode.gotReply_after_queue {peer peer' : ServerNode} {calls : List ServerCall} {reqID maxCost : UInt64}
    (hc : ∀ c ∈ calls, c.touches reqID = false) (hr : (peer.queueRequest reqID maxCost).run calls = some peer')
    (bv : UInt64) (now : Nat) :
    (peer'.gotReply reqID bv now).bufEstimate.toNat =
      min bv.toNat peer'.params.bufLimit.toNat - ((calls.map ServerCall.queued).sum).toNat := by
  have hq : (peer.queueRequest reqID maxCost).pending reqID = some (peer.sumCost + maxCost) := by
    rw [queueRequest_pending, Function.update_self]
  obtain ⟨hp, hsum⟩ := pending_run hq hc hr
  rw [(gotReply_of_pending peer' reqID bv now hp).1, hsum, queueRequest_sumCost, UInt64.sub_self, UInt64.zero_add]

/-! ## Where the bookkeeping wraps -/

theorem flowcontrol_wraps_and_divides_by_zero :
    recharge ⟨100, 9223372036854775808⟩ 0 0 2 = 0 ∧
      reject ⟨100, 50000⟩ ⟨101, 0⟩ (some (newClientNode ⟨100, 50000⟩ 0)) 50 true 1 1 =
        some (some ((newClientNode ⟨100, 50000⟩ 0).recalcBV 50), false) ∧
      ((newClientNode ⟨100, 50000⟩ 0).requestProcessed 50 101 50 50).2.1 = 100 ∧
      ((newServerNode ⟨100, 50000⟩ 0).queueRequest 1 101).bufEstimate = 18446744073709551615 ∧
      ((newServerNode ⟨100, 0⟩ 0).canSend 0 100).2.map Prod.fst = some 0 ∧
      (newServerNode ⟨100, 0⟩ 0).run [.canSend 0 100, .queueRequest 1 100, .canSend 0 100] = none :=
  ⟨by decide, by decide, by decide, by decide, by decide, rfl⟩

end Etherzero.Flowcontrol
