import Mathlib
import Etherzero.Trie.Encoding

/-!
# The trie key encodings round-trip

`keybytesToHex` splits each byte `b` into `b / 16` and `b % 16`, and `decodeNibbles` joins a pair back as
`high <<< 4 ||| low`. The two are inverse on bytes and on nibbles below 16 (`split_join`, `nibbles_join`). The flag byte
of `hexToCompact` splits into the flag nibble (0 to 3) and the first nibble or zero. `compactToHex` reads the
terminator and the parity off the flag nibble and drops what the flag added, in each of the four cases.
-/

namespace Etherzero.Trie

/-- The nibbles of bytes, high first: `keybytesToHex` before its terminator. -/
def keyNibbles (bs : List UInt8) : List UInt8 := bs.flatMap fun b => [b / 16, b % 16]

theorem keybytesToHex_eq (bs : List UInt8) : keybytesToHex bs = keyNibbles bs ++ [16] := rfl

@[simp]
theorem keyNibbles_nil : keyNibbles [] = [] := rfl

@[simp]
theorem keyNibbles_cons (b : UInt8) (bs : List UInt8) : keyNibbles (b :: bs) = b / 16 :: b % 16 :: keyNibbles bs :=
  rfl

theorem length_keyNibbles (bs : List UInt8) : (keyNibbles bs).length = 2 * bs.length := by
  induction bs with
  | nil => rfl
  | cons b bs ih =>
    simp only [keyNibbles_cons, List.length_cons, ih]
    omega

theorem keyNibbles_lt (bs : List UInt8) : ∀ n ∈ keyNibbles bs, n < 16 := by
  induction bs with
  | nil => nofun
  | cons b bs ih =>
    intro n hn
    rcases List.mem_cons.mp hn with rfl | hn
    · exact UInt8.lt_iff_toNat_lt.mpr (by rw [UInt8.toNat_div]; have := b.toNat_lt; simp; omega)
    rcases List.mem_cons.mp hn with rfl | hn
    · exact UInt8.lt_iff_toNat_lt.mpr (by rw [UInt8.toNat_mod]; simp; omega)
    · exact ih n hn

/-- The join of every pair of nibbles, read back. -/
theorem join_nibbles_div_mod : ∀ a : Nat, a < 16 → ∀ b : Nat, b < 16 →
    ((a.toUInt8 <<< 4 ||| b.toUInt8) / 16 : UInt8).toNat = a ∧
      ((a.toUInt8 <<< 4 ||| b.toUInt8) % 16 : UInt8).toNat = b := by
  decide

/-- `decodeNibbles` joins two nibbles into the byte that `keybytesToHex` splits into them. -/
theorem nibbles_join {a b : UInt8} (ha : a < 16) (hb : b < 16) :
    (a <<< 4 ||| b) / 16 = a ∧ (a <<< 4 ||| b) % 16 = b := by
  obtain ⟨h₁, h₂⟩ := join_nibbles_div_mod a.toNat (UInt8.lt_iff_toNat_lt.mp ha) b.toNat (UInt8.lt_iff_toNat_lt.mp hb)
  simp only [Nat.toUInt8_eq, UInt8.ofNat_toNat] at h₁ h₂
  exact ⟨UInt8.toNat_inj.mp h₁, UInt8.toNat_inj.mp h₂⟩

/-- A byte is the join of its two nibbles. -/
theorem split_join (b : UInt8) : (b / 16) <<< 4 ||| b % 16 = b := by
  have hdiv : b / 16 < 16 := keyNibbles_lt [b] _ (by simp)
  have hmod : b % 16 < 16 := keyNibbles_lt [b] _ (by simp)
  obtain ⟨h₁, h₂⟩ := nibbles_join hdiv hmod
  -- a byte is determined by its quotient and its remainder by 16
  apply UInt8.toNat_inj.mp
  have e₁ := congrArg UInt8.toNat h₁
  have e₂ := congrArg UInt8.toNat h₂
  rw [UInt8.toNat_div, UInt8.toNat_div] at e₁
  rw [UInt8.toNat_mod, UInt8.toNat_mod] at e₂
  simp only [UInt8.reduceToNat] at e₁ e₂
  omega

theorem decodeNibbles_keyNibbles (bs : List UInt8) : decodeNibbles (keyNibbles bs) = some bs := by
  induction bs with
  | nil => rfl
  | cons b bs ih => rw [keyNibbles_cons, decodeNibbles, ih, Option.map_some, split_join]

/-- An even number of nibbles decodes, to the bytes whose nibbles they are. -/
theorem decodeNibbles_of_nibbles (ns : List UInt8) (heven : ns.length % 2 = 0) (hns : ∀ n ∈ ns, n < 16) :
    ∃ bs, decodeNibbles ns = some bs ∧ keyNibbles bs = ns := by
  induction ns using decodeNibbles.induct with
  | case1 => exact ⟨[], rfl, rfl⟩
  | case2 n => nomatch heven
  | case3 high low rest ih =>
    have hrest : rest.length % 2 = 0 := by simp at heven; omega
    obtain ⟨bs, hbs, hnib⟩ := ih hrest fun n hn => hns n (by simp [hn])
    obtain ⟨h₁, h₂⟩ := nibbles_join (hns high (by simp)) (hns low (by simp))
    refine ⟨(high <<< 4 ||| low) :: bs, by rw [decodeNibbles, hbs, Option.map_some], ?_⟩
    rw [keyNibbles_cons, h₁, h₂, hnib]

/-- No nibble below 16 is the terminator. -/
theorem hasTerm_of_nibbles (ns : List UInt8) (term : Bool) (hns : ∀ n ∈ ns, n < 16) :
    hasTerm (ns ++ if term then [16] else []) = term := by
  cases term with
  | true => simp [hasTerm]
  | false =>
    simp only [hasTerm, Bool.false_eq_true, if_false, List.append_nil]
    cases h : ns.getLast? with
    | none => rfl
    | some n =>
      have hlt := hns n (List.mem_of_getLast? h)
      simp only [beq_eq_false_iff_ne, ne_eq, Option.some.injEq]
      rintro rfl
      exact absurd hlt (by decide)

/-- `compactToHex` of a flag byte and bytes: the flag's two nibbles, then the nibbles of the bytes, less the
terminator when the flag nibble is below 2, less the flag nibble, and less the second when the flag is even. -/
theorem compactToHex_cons (flag : UInt8) (bs : List UInt8) :
    compactToHex (flag :: bs) =
      some (((flag / 16 :: flag % 16 :: keyNibbles bs) ++ if flag / 16 < 2 then [] else [16]).drop
        (2 - ((flag / 16) &&& 1).toNat)) := by
  by_cases hlow : flag / 16 < 2
  · have hdrop : (flag % 16 :: (keyNibbles bs ++ [16])).dropLast = flag % 16 :: keyNibbles bs := by
      rw [← List.cons_append, List.dropLast_concat]
    simp [compactToHex, keybytesToHex_eq, hlow, hdrop]
    omega
  · simp [compactToHex, keybytesToHex_eq, hlow]
    omega

/-- The flag byte of an odd key: the flag nibble `2 * terminator + 1` above the first nibble. -/
theorem oddFlag_nibbles (term : Bool) {first : UInt8} (hfirst : first < 16) :
    ((if term then (1 : UInt8) else 0) <<< 5 ||| (1 : UInt8) <<< 4 ||| first) / 16 = (if term then (3 : UInt8) else 1) ∧
      ((if term then (1 : UInt8) else 0) <<< 5 ||| (1 : UInt8) <<< 4 ||| first) % 16 = first := by
  have hhigh :
      (if term then (1 : UInt8) else 0) <<< 5 ||| (1 : UInt8) <<< 4 = (if term then (3 : UInt8) else 1) <<< 4 := by
    cases term <;> decide
  rw [hhigh]
  exact nibbles_join (by cases term <;> decide) hfirst

/-- A key of nibbles below 16, with or without the terminator, comes back from its compact form. -/
theorem compactToHex_hexToCompact (ns : List UInt8) (term : Bool) (hns : ∀ n ∈ ns, n < 16) :
    (hexToCompact (ns ++ if term then [16] else [])).bind compactToHex = some (ns ++ if term then [16] else []) := by
  have hterm := hasTerm_of_nibbles ns term hns
  have hstrip : (if term then (ns ++ if term then [16] else []).dropLast else ns ++ if term then [16] else []) = ns := by
    cases term <;> simp
  unfold hexToCompact
  simp only [hterm, hstrip]
  rcases Nat.mod_two_eq_zero_or_one ns.length with heven | hodd
  · -- an even key: a flag byte of its own
    obtain ⟨bs, hbs, hnib⟩ := decodeNibbles_of_nibbles ns heven hns
    have hflag : (if term then (1 : UInt8) else 0) <<< 5 = if term then 32 else 0 := by cases term <;> decide
    rw [if_neg (by omega), hbs, Option.map_some, Option.bind_some, compactToHex_cons, hflag, ← hnib]
    cases term <;> simp
  · -- an odd key: its first nibble goes into the flag byte
    obtain _ | ⟨first, rest⟩ := ns
    · nomatch hodd
    have hrest : rest.length % 2 = 0 := by simp at hodd; omega
    obtain ⟨bs, hbs, hnib⟩ := decodeNibbles_of_nibbles rest hrest fun n hn => hns n (by simp [hn])
    obtain ⟨h₁, h₂⟩ := oddFlag_nibbles term (hns first (by simp))
    rw [if_pos hodd]
    simp only [hbs, Option.map_some]
    rw [Option.bind_some, compactToHex_cons, h₁, h₂, ← hnib]
    cases term <;> simp

theorem hexToKeybytes_keybytesToHex (k : List UInt8) : hexToKeybytes (keybytesToHex k) = some k := by
  have hterm : hasTerm (keyNibbles k ++ [16]) = true := by simp [hasTerm]
  have heven : (keyNibbles k).length % 2 = 0 := by rw [length_keyNibbles]; omega
  unfold hexToKeybytes
  simp only [keybytesToHex_eq, hterm, if_true, List.dropLast_concat]
  rw [if_neg (by omega), decodeNibbles_keyNibbles]

/-- Hex to compact and back gives every key of nibbles below 16, with or without the terminator. Hex to key bytes gives
back every key's bytes. So hex to compact and back also gives every key's hex form. -/
theorem trie_key_encodings_round_trip :
    (∀ (ns : List UInt8) (term : Bool), (∀ n ∈ ns, n < 16) →
      (hexToCompact (ns ++ if term then [16] else [])).bind compactToHex = some (ns ++ if term then [16] else [])) ∧
      (∀ k, hexToKeybytes (keybytesToHex k) = some k) ∧
      ∀ k, (hexToCompact (keybytesToHex k)).bind compactToHex = some (keybytesToHex k) :=
  ⟨compactToHex_hexToCompact, hexToKeybytes_keybytesToHex,
    fun k => compactToHex_hexToCompact (keyNibbles k) true (keyNibbles_lt k)⟩

example : (hexToCompact [1, 2, 3, 16]).bind compactToHex = some [1, 2, 3, 16] := by decide

end Etherzero.Trie
