import Mathlib
import Etherzero.Eth.MasternodeBackend

/-!
# The manager never hears that its own node joined

`masternodeLoop` compares a join event's id, eight bytes, with all 64 bytes of `XY()`. `bytes.Equal` of slices of
different lengths is false, so no join event sets `IsMasternode`. A quit event's id is compared with `xy[0:8]`, and the
quit of this node clears it. So a node that was not registered when its manager started never counts as a masternode
to it, and never pings, whatever the contract does afterwards. When the manager does count the node as a masternode,
a ping tick hands the pool the one transaction it is meant to.
-/

namespace Etherzero.MasternodeManager

variable (xy : Vector UInt8 64) (m : Manager)

@[simp]
theorem Manager.run_nil : m.run xy [] = m := rfl

@[simp]
theorem Manager.run_cons (e : Event) (es : List Event) : m.run xy (e :: es) = (m.handle xy e).run xy es := rfl

/-- Byte strings of different lengths are never `bytes.Equal`. -/
theorem bytesEqual_of_length_ne {a b : List UInt8} (h : a.length ≠ b.length) : bytesEqual a b = false := by
  unfold bytesEqual
  rw [beq_eq_false_iff_ne]
  exact fun hab => h (congrArg List.length hab)

/-- No join event changes the manager. -/
theorem handle_join (id : Vector UInt8 8) : m.handle xy (.join id) = m := by
  have hlen : id.toList.length ≠ xy.toList.length := by simp
  simp only [Manager.handle, bytesEqual_of_length_ne hlen, Bool.false_eq_true, if_false]

/-- A quit event with this node's id clears `IsMasternode`. -/
theorem handle_quit_self (id : Vector UInt8 8) (hid : id.toList = xy.toList.take 8) :
    (m.handle xy (.quit id)).isMasternode = 0 := by
  simp only [Manager.handle, bytesEqual, hid, beq_self_eq_true, if_true]

/-- A ping tick hands the pool one transaction when five things hold: the manager counts the node as a masternode, the
chain is not syncing, the account holds `10^16`, it has the power for 90000 gas at the price, and the transaction can
be signed. The transaction goes to the contract, with value 0, gas 90000 and the pool's nonce. Otherwise the tick
hands over nothing. -/
theorem ping_submitted (env : PingEnv) :
    (m.ping env).submitted =
      if m.isMasternode ≠ 0 ∧ m.syncing ≠ 1 ∧ 10 ^ 16 ≤ env.balance ∧
          90000 * env.gasPrice.getD (20 * 10 ^ 9) ≤ env.power ∧ env.signs = true then
        m.submitted ++ [⟨env.nonce, masternodeContractAddress, 0, 90000, env.gasPrice.getD (20 * 10 ^ 9)⟩]
      else m.submitted := by
  unfold Manager.ping
  by_cases hm : m.isMasternode = 0
  · rw [if_pos hm, if_neg fun h => h.1 hm]
  rw [if_neg hm]
  by_cases hs : m.syncing = 1
  · rw [if_pos hs, if_neg fun h => h.2.1 hs]
  rw [if_neg hs]
  by_cases hb : env.balance < 10 ^ 16
  · rw [if_pos hb, if_neg fun h => absurd h.2.2.1 (Nat.not_le.mpr hb)]
  rw [if_neg hb]
  dsimp only
  by_cases hp : env.power < 90000 * env.gasPrice.getD (20 * 10 ^ 9)
  · rw [if_pos hp, if_neg fun h => absurd h.2.2.2.1 (Nat.not_le.mpr hp)]
  rw [if_neg hp]
  -- every check passed but the signature
  have hb' : 10 ^ 16 ≤ env.balance := Nat.not_lt.mp hb
  have hp' : 90000 * env.gasPrice.getD (20 * 10 ^ 9) ≤ env.power := Nat.not_lt.mp hp
  cases env.signs
  · rw [if_pos (show (!false) = true from rfl), if_neg fun h => Bool.false_ne_true h.2.2.2.2]
  · rw [if_neg (show ¬(!true) = true by decide), if_pos ⟨hm, hs, hb', hp', rfl⟩]

/-- An event leaves a manager that does not count the node as a masternode, and has handed over nothing, as it was in
both. -/
theorem handle_unregistered (h₁ : m.isMasternode = 0) (h₂ : m.submitted = []) (e : Event) :
    (m.handle xy e).isMasternode = 0 ∧ (m.handle xy e).submitted = [] := by
  cases e with
  | join id => rw [handle_join]; exact ⟨h₁, h₂⟩
  | quit id =>
    simp only [Manager.handle]
    split_ifs
    · exact ⟨rfl, h₂⟩
    · exact ⟨h₁, h₂⟩
  | ping env =>
    -- the tick stops at the first check
    have hping : m.ping env = m := by rw [Manager.ping, if_pos h₁]
    show (m.ping env).isMasternode = 0 ∧ (m.ping env).submitted = []
    rw [hping]
    exact ⟨h₁, h₂⟩
  | downloaderStart => exact ⟨h₁, h₂⟩
  | downloaderDone => exact ⟨h₁, h₂⟩
  | downloaderFailed => exact ⟨h₁, h₂⟩

/-- A manager started for a node that was not registered never counts the node as a masternode and never pings,
whatever events come. That includes the join event with the node's own id, which the contract emits when the node
registers. -/
theorem unregistered_at_start_never_pings (es : List Event) :
    ((Manager.start false).run xy es).isMasternode = 0 ∧ ((Manager.start false).run xy es).submitted = [] := by
  -- the two facts hold at the start and each event keeps them
  suffices h : ∀ m : Manager, m.isMasternode = 0 → m.submitted = [] →
      (m.run xy es).isMasternode = 0 ∧ (m.run xy es).submitted = [] from h _ rfl rfl
  induction es with
  | nil => exact fun m h₁ h₂ => ⟨h₁, h₂⟩
  | cons e es ih =>
    intro m h₁ h₂
    obtain ⟨h₁', h₂'⟩ := handle_unregistered xy m h₁ h₂ e
    rw [Manager.run_cons]
    exact ih _ h₁' h₂'

end Etherzero.MasternodeManager
