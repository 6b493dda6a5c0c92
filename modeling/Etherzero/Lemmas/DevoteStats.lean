import Mathlib
import Etherzero.Lib.BigEndian
import Etherzero.Devote.DevoteDB
import Etherzero.Devote.Snapshot

/-!
# The block counts of the stats trie over a chain

`Rolling`, once for each block on top of its parent, keeps the stats trie equal to the count of the blocks each witness
sealed in each cycle: under the key of cycle `c` and witness `w` stands the 8-byte big-endian number of the blocks so
far in `c` sealed by `w`, and no key of a pair without a block is present. The block times must increase, so that a
block in a later cycle than its parent's is the first of its cycle. The count and the stored bytes wrap together at
`2 ^ 64`, so no bound on the chain is needed.
-/

namespace Etherzero.Devote

/-- The blocks of `bs` in cycle `c` sealed by `w`. -/
def blockCount (bs : List Block) (c : UInt64) (w : List UInt8) : Nat :=
  bs.countP fun b => b.time / epoch = c ∧ b.witness = w

/-- The stats trie counts the blocks of `bs`: the count of each cycle and witness under its key, nothing for a pair
without a block. -/
def StatsCount (d : DevoteDB) (bs : List Block) : Prop :=
  ∀ c w, d.statsTrie (putUint64 c ++ w) =
    if blockCount bs c w = 0 then none else some (beFixed 8 (blockCount bs c w))

namespace StatsAux

theorem putUint64_append_inj {c c' : UInt64} {w w' : List UInt8} (h : putUint64 c ++ w = putUint64 c' ++ w') :
    c = c' ∧ w = w' := by
  obtain ⟨hc, hw⟩ := List.append_inj h (by simp [putUint64])
  refine ⟨UInt64.toNat_inj.mp (beFixed_injective (UInt64.toNat_lt c) (UInt64.toNat_lt c') hc), hw⟩

theorem pow_256_eight : (256 : Nat) ^ 8 = 2 ^ 64 := by norm_num

theorem bigEndianUint64_beFixed (n : Nat) : bigEndianUint64 (beFixed 8 n) = UInt64.ofNat n := by
  have htake : (beFixed 8 n).take 8 = beFixed 8 n := List.take_of_length_le (by simp)
  apply UInt64.toNat_inj.mp
  rw [bigEndianUint64, htake, beValue_beFixed, UInt64.toNat_ofNat', UInt64.toNat_ofNat', pow_256_eight, Nat.mod_mod]

theorem putUint64_ofNat (n : Nat) : putUint64 (UInt64.ofNat n) = beFixed 8 n := by
  rw [putUint64, UInt64.toNat_ofNat', ← pow_256_eight, beFixed_mod 8 n]

theorem blockCount_append_single (bs : List Block) (b : Block) (c : UInt64) (w : List UInt8) :
    blockCount (bs ++ [b]) c w = blockCount bs c w + if b.time / epoch = c ∧ b.witness = w then 1 else 0 := by
  simp only [blockCount, List.countP_append, List.countP_singleton, decide_eq_true_eq]

theorem toNat_div_epoch_le {a b : UInt64} (h : a ≤ b) : (a / epoch).toNat ≤ (b / epoch).toNat := by
  rw [UInt64.toNat_div, UInt64.toNat_div]
  exact Nat.div_le_div_right (UInt64.le_iff_toNat_le.mp h)

/-- A cycle after the last block's has no block yet. -/
theorem blockCount_later {bs : List Block} {t c : UInt64} (hle : ∀ b ∈ bs, b.time ≤ t) (hc : t / epoch < c)
    (w : List UInt8) : blockCount bs c w = 0 := by
  rw [blockCount, List.countP_eq_zero]
  intro b hb hbc
  have hdiv := toNat_div_epoch_le (hle b hb)
  simp only [decide_eq_true_eq] at hbc
  rw [hbc.1] at hdiv
  have := UInt64.lt_iff_toNat_lt.mp hc
  omega

/-- `Rolling` writes, under the key of the block's cycle and witness, one more than the count stored there. -/
theorem rolling_statsTrie {d : DevoteDB} {bs : List Block} (hinv : StatsCount d bs) {t : UInt64} (b : Block)
    (hle : ∀ b ∈ bs, b.time ≤ t) (hlt : t < b.time) :
    (d.rolling t b.time b.witness).statsTrie = d.statsTrie.tryUpdate (putUint64 (b.time / epoch) ++ b.witness)
      (beFixed 8 (blockCount bs (b.time / epoch) b.witness + 1)) := by
  rw [← putUint64_ofNat]
  simp only [DevoteDB.rolling]
  congr 2
  split
  · -- the parent's cycle: the stored count, plus one
    rename_i hsame
    rw [hsame, hinv (b.time / epoch) b.witness]
    by_cases h0 : blockCount bs (b.time / epoch) b.witness = 0
    · rw [if_pos h0, h0]
      rfl
    · rw [if_neg h0]
      dsimp only
      rw [bigEndianUint64_beFixed]
      apply UInt64.toNat_inj.mp
      simp [UInt64.toNat_add, UInt64.toNat_ofNat']
  · -- a later cycle than the parent's: the block is its first
    rename_i hnew
    have hc : t / epoch < b.time / epoch := by
      have hle' := toNat_div_epoch_le (UInt64.le_of_lt hlt)
      have hne : (t / epoch).toNat ≠ (b.time / epoch).toNat := fun h => hnew (UInt64.toNat_inj.mp h)
      exact UInt64.lt_iff_toNat_lt.mpr (by omega)
    rw [blockCount_later hle hc]
    rfl

end StatsAux

open StatsAux

/-- One block: `Rolling` keeps the stats trie counting the blocks, the new one included. -/
theorem rolling_statsCount {d : DevoteDB} {bs : List Block} (hinv : StatsCount d bs) {t : UInt64} (b : Block)
    (hle : ∀ b ∈ bs, b.time ≤ t) (hlt : t < b.time) :
    StatsCount (d.rolling t b.time b.witness) (bs ++ [b]) := by
  intro c w
  rw [rolling_statsTrie hinv b hle hlt, TrieMap.tryUpdate, blockCount_append_single]
  by_cases hk : putUint64 c ++ w = putUint64 (b.time / epoch) ++ b.witness
  · -- the key of the new block's cycle and witness: one more block
    obtain ⟨rfl, rfl⟩ := putUint64_append_inj hk
    simp [beFixed]
  · have hne : ¬ (b.time / epoch = c ∧ b.witness = w) := by
      rintro ⟨rfl, rfl⟩
      exact hk rfl
    rw [if_neg hk, if_neg hne, Nat.add_zero]
    exact hinv c w

/-- A chain of blocks with increasing times: recording each block keeps the stats trie counting all of them. -/
theorem recordChain_statsCount : ∀ (blocks : List Block) (snap : Snapshot) (t : UInt64) (bs : List Block),
    StatsCount snap.devoteDB bs → (∀ b ∈ bs, b.time ≤ t) → (t :: blocks.map Block.time).Pairwise (· < ·) →
    StatsCount (recordChain snap t blocks).devoteDB (bs ++ blocks)
  | [], snap, _, bs, hinv, _, _ => by simpa [recordChain] using hinv
  | b :: blocks, snap, t, bs, hinv, hle, hinc => by
    have hlt : t < b.time := List.rel_of_pairwise_cons hinc List.mem_cons_self
    have hstep := rolling_statsCount hinv b hle hlt
    have hrest := recordChain_statsCount blocks (snap.recording t b.time b.witness) b.time (bs ++ [b]) hstep
      (fun b' hb' => by
        rcases List.mem_append.mp hb' with hb' | hb'
        · have h₁ := UInt64.le_iff_toNat_le.mp (hle b' hb')
          have h₂ := UInt64.lt_iff_toNat_lt.mp hlt
          exact UInt64.le_iff_toNat_le.mpr (by omega)
        · rw [List.mem_singleton.mp hb']
          exact UInt64.le_refl _)
      (List.Pairwise.of_cons hinc)
    simpa [recordChain] using hrest

/-- `SetWitnesses` writes the cycle trie only. -/
theorem statsTrie_of_setWitnesses {d d' : DevoteDB} {cycle : UInt64} {ws : List (List UInt8)}
    (h : d.setWitnesses cycle ws = .ok d') : d'.statsTrie = d.statsTrie := by
  unfold DevoteDB.setWitnesses at h
  split at h
  · nomatch h
  · injection h with h
    rw [← h]

/-- The genesis database counts no block: `initGenesisDevoteProtocol` stores only the genesis witnesses. -/
theorem statsCount_initGenesisDevoteProtocol (timestamp : UInt64) (witnesses : Option (List (List UInt8))) :
    StatsCount (initGenesisDevoteProtocol timestamp witnesses) [] := by
  have hstats : (initGenesisDevoteProtocol timestamp witnesses).statsTrie = DevoteDB.empty.statsTrie := by
    unfold initGenesisDevoteProtocol
    split
    · split
      · rename_i h
        exact statsTrie_of_setWitnesses h
      · rfl
    · rfl
  intro c w
  rw [hstats]
  rfl

end Etherzero.Devote
