import Mathlib
import Etherzero.Lib.Digits
import Etherzero.Common.Hexutil

/-!
# Hex quantities: what the decoders accept

The functions of hexutil.go against an account of hex numbers of their own: a hex digit is the character that
`Nat.digitChar` writes for a value below 16, or its upper case (`IsHexDigit`), and a quantity is `0x` or `0X`, then `0`
alone or at most 64 digits of which the first is not zero, denoting the value of its digits (`IsQuantity`).
`decodeNibble` reads exactly the hex digits; each word of `DecodeBig` holds at most `bigWordNibbles` digits and so never
wraps, and `SetBits` puts the words together to the value of all the digits. The encoders write Mathlib's `Nat.digits`
in hex, which both decoders read back.
-/

namespace Etherzero.Hexutil

open Etherzero.Digits

/-! ## Hex digits and quantities -/

/-- A hex digit with its value: the lower-case digit `Nat.digitChar` writes for it, or that digit's upper case. -/
def IsHexDigit (c : UInt8) (d : Nat) : Prop :=
  d < 16 ∧ (c = ascii (Nat.digitChar d) ∨ c = ascii (Nat.digitChar d).toUpper)

instance (c : UInt8) (d : Nat) : Decidable (IsHexDigit c d) := inferInstanceAs (Decidable (_ ∧ _))

/-- A quantity and the integer it denotes: the prefix, then `0` alone or a non-zero digit and at most 63 more. -/
def IsQuantity (s : List UInt8) (x : Nat) : Prop :=
  ∃ p cs ds, s = ascii '0' :: p :: cs ∧ (p = ascii 'x' ∨ p = ascii 'X') ∧ List.Forall₂ IsHexDigit cs ds ∧
    (ds = [0] ∨ ∃ d rest, ds = d :: rest ∧ 0 < d ∧ rest.length ≤ 63) ∧ x = Nat.ofDigits 16 ds.reverse

set_option maxRecDepth 2000 in
/-- Every byte `decodeNibble` accepts is a hex digit of the value it returns: checked byte by byte. -/
theorem decodeNibble_sound : ∀ c : UInt8, (decodeNibble c).all (fun d => decide (IsHexDigit c d)) := by decide

theorem decodeNibble_digit : ∀ d : Fin 16,
    decodeNibble (ascii (Nat.digitChar d)) = some d ∧ decodeNibble (ascii (Nat.digitChar d).toUpper) = some d := by
  decide

theorem decodeNibble_eq_some_iff {c : UInt8} {d : Nat} : decodeNibble c = some d ↔ IsHexDigit c d := by
  constructor
  · intro h
    simpa [h] using decodeNibble_sound c
  · rintro ⟨hd, rfl | rfl⟩
    · exact (decodeNibble_digit ⟨d, hd⟩).1
    · exact (decodeNibble_digit ⟨d, hd⟩).2

theorem isHexDigit_unique : Relator.RightUnique IsHexDigit := by
  intro c d d' h h'
  rw [← decodeNibble_eq_some_iff] at h h'
  exact Option.some.inj (h.symm.trans h')

theorem isHexDigit_zero_iff {c : UInt8} : IsHexDigit c 0 ↔ c = ascii '0' := by
  have hlower : Nat.digitChar 0 = '0' := rfl
  simp [IsHexDigit, hlower]

theorem forall₂_isHexDigit_lt {cs : List UInt8} {ds : List Nat} (h : List.Forall₂ IsHexDigit cs ds) :
    ∀ d ∈ ds, d < 16 := by
  induction h with
  | nil => simp
  | cons hd _ ih =>
    intro d' hd'
    rcases List.mem_cons.mp hd' with rfl | hrest
    · exact hd.1
    · exact ih d' hrest

/-! ## `DecodeBig` -/

/-- The inner loop reads a chunk exactly when all of it is hex digits, folding their values with the word's wrap. -/
theorem decodeWord_eq_ok {n : Nat} {cs : List UInt8} {w v : Nat} :
    decodeWord n cs w = .ok v ↔
      ∃ ds, List.Forall₂ IsHexDigit cs ds ∧ v = ds.foldl (fun acc d => (acc * 16 + d) % 2 ^ (4 * n)) w := by
  induction cs generalizing w with
  | nil => simp [decodeWord, eq_comm]
  | cons c cs ih =>
    rw [decodeWord]
    cases hc : decodeNibble c with
    | none =>
      simp only [reduceCtorEq, false_iff, not_exists, not_and, List.forall₂_cons_left_iff]
      rintro _ ⟨d, ds, hd, -, rfl⟩
      rw [← decodeNibble_eq_some_iff, hc] at hd
      cases hd
    | some d =>
      simp only [ih, List.forall₂_cons_left_iff]
      constructor
      · rintro ⟨ds, hds, rfl⟩
        exact ⟨d :: ds, ⟨d, ds, decodeNibble_eq_some_iff.mp hc, hds, rfl⟩, rfl⟩
      · rintro ⟨_, ⟨d', ds, hd', hds, rfl⟩, rfl⟩
        obtain rfl : d' = d := isHexDigit_unique hd' (decodeNibble_eq_some_iff.mp hc)
        exact ⟨ds, hds, rfl⟩

/-- A chunk of at most `bigWordNibbles` digits fits its word, which is then the chunk's value. -/
theorem decodeWord_chunk {n : Nat} {cs : List UInt8} {ds : List Nat} (h : List.Forall₂ IsHexDigit cs ds)
    (hlen : cs.length ≤ n) : decodeWord n cs 0 = .ok (Nat.ofDigits 16 ds.reverse) := by
  have hlt : ∀ d ∈ ds.reverse, d < 16 := fun d hd => forall₂_isHexDigit_lt h d (List.mem_reverse.mp hd)
  have hval : Nat.ofDigits 16 ds.reverse < 2 ^ (4 * n) := calc
    _ < 16 ^ ds.reverse.length := Nat.ofDigits_lt_base_pow_length (by decide) hlt
    _ ≤ 16 ^ n := Nat.pow_le_pow_right (by decide) (by rw [List.length_reverse, ← h.length_eq]; exact hlen)
    _ = 2 ^ (4 * n) := by rw [Nat.pow_mul]
  rw [decodeWord_eq_ok]
  refine ⟨ds, h, ?_⟩
  rw [foldl_mul_add_mod ds (Nat.two_pow_pos _), foldl_mul_add, Nat.zero_mul, Nat.zero_add, Nat.mod_eq_of_lt hval]


theorem setBits_cons (n w : Nat) (ws : List Nat) : setBits n (w :: ws) = w + 2 ^ (4 * n) * setBits n ws := rfl

/-- The outer loop, for words enough to reach the start of the string: the words it returns put together by `SetBits`
are the value of the digits before `end_`, and it returns words exactly when those are all hex digits. The induction is
on the words left, each taking the chunk before the previous one. -/
theorem decodeWords_eq_ok {n : Nat} (hn : 0 < n) (raw : List UInt8) (count end_ : Nat) (hend : end_ ≤ count * n)
    (hraw : end_ ≤ raw.length) (x : Nat) :
    (∃ words, decodeWords n raw count end_ = .ok words ∧ setBits n words = x) ↔
      ∃ ds, List.Forall₂ IsHexDigit (raw.take end_) ds ∧ x = Nat.ofDigits 16 ds.reverse := by
  induction count generalizing end_ x with
  | zero =>
    obtain rfl : end_ = 0 := by omega
    simp [decodeWords, setBits, eq_comm]
  | succ count ih =>
    rw [decodeWords]
    generalize hstart : end_ - n = start
    have hsplit : raw.take end_ = raw.take start ++ (raw.drop start).take (end_ - start) := by
      rw [← List.take_add]
      congr 1
      omega
    have hchunk : ((raw.drop start).take (end_ - start)).length ≤ n := by
      simp only [List.length_take, List.length_drop]
      omega
    have ih' := ih start (by rw [← hstart, Nat.succ_mul] at *; omega) (by omega)
    cases hw : decodeWord n ((raw.drop start).take (end_ - start)) 0 with
    | error e =>
      simp only [reduceCtorEq, false_and, exists_false, false_iff, not_exists, not_and]
      intro ds hds
      rw [hsplit, forall₂_append_left_iff] at hds
      obtain ⟨ds₀, ds₁, -, -, hds₁⟩ := hds
      rw [decodeWord_chunk hds₁ hchunk] at hw
      cases hw
    | ok word =>
      obtain ⟨ds₁, hds₁, -⟩ := decodeWord_eq_ok.mp hw
      have hword : word = Nat.ofDigits 16 ds₁.reverse := by
        rw [decodeWord_chunk hds₁ hchunk] at hw
        exact (Except.ok.inj hw).symm
      -- the chunk holds `n` digits unless it starts the string, where no digits come before it
      have hvalue : ∀ ds₀, List.Forall₂ IsHexDigit (raw.take start) ds₀ →
          word + 2 ^ (4 * n) * Nat.ofDigits 16 ds₀.reverse = Nat.ofDigits 16 (ds₀ ++ ds₁).reverse := by
        intro ds₀ hds₀
        rw [hword, List.reverse_append, Nat.ofDigits_append, List.length_reverse]
        congr 1
        by_cases hle : n ≤ end_
        · have hlen : ds₁.length = n := by
            rw [← hds₁.length_eq]
            simp only [List.length_take, List.length_drop]
            omega
          rw [hlen, Nat.pow_mul]
        · obtain rfl : start = 0 := by omega
          rw [List.take_zero, List.forall₂_nil_left_iff] at hds₀
          subst hds₀
          simp
      constructor
      · rintro ⟨words, hws, rfl⟩
        cases hrest : decodeWords n raw count start with
        | error e =>
          rw [hrest] at hws
          cases hws
        | ok rest =>
          rw [hrest] at hws
          cases hws
          obtain ⟨ds₀, hds₀, hval⟩ := (ih' _).mp ⟨rest, hrest, rfl⟩
          refine ⟨ds₀ ++ ds₁, hsplit ▸ List.rel_append hds₀ hds₁, ?_⟩
          rw [setBits_cons, hval, hvalue ds₀ hds₀]
      · rintro ⟨ds, hds, rfl⟩
        rw [hsplit, forall₂_append_left_iff] at hds
        obtain ⟨ds₀, ds₂, rfl, hds₀, hds₂⟩ := hds
        obtain rfl : ds₂ = ds₁ := List.right_unique_forall₂' isHexDigit_unique hds₂ hds₁
        obtain ⟨rest, hrest, hval⟩ := (ih' _).mpr ⟨ds₀, hds₀, rfl⟩
        refine ⟨word :: rest, by rw [hrest]; rfl, ?_⟩
        rw [setBits_cons, hval, hvalue ds₀ hds₀]


theorem checkNumber_eq_ok {s raw : List UInt8} :
    checkNumber s = .ok raw ↔ ∃ p, s = ascii '0' :: p :: raw ∧ (p = ascii 'x' ∨ p = ascii 'X') ∧ raw ≠ [] ∧
      (1 < raw.length → raw.head? ≠ some (ascii '0')) := by
  match s with
  | [] => simp [checkNumber]
  | [c] => simp [checkNumber, has0xPrefix]
  | c₀ :: c₁ :: rest =>
    simp only [checkNumber, has0xPrefix, List.length_cons, List.drop_succ_cons, List.drop_zero, List.cons.injEq]
    rw [if_neg (by omega)]
    constructor
    · intro h
      split_ifs at h with hpre hempty hzero
      cases h
      simp only [Bool.not_eq_eq_eq_not, Bool.not_true, decide_eq_false_iff_not, not_not] at hpre
      exact ⟨c₁, ⟨hpre.1, rfl, rfl⟩, hpre.2, fun h => hempty (by simp [h]), fun hl hh => hzero ⟨hl, hh⟩⟩
    · rintro ⟨p, ⟨rfl, rfl, rfl⟩, hp, hne, hhead⟩
      rw [if_neg (by simp [hp]), if_neg (by simpa using hne), if_neg (fun h => hhead h.1 h.2)]

theorem decodeBig_eq_ok {n : Nat} (hn : 0 < n) {s : List UInt8} {x : Nat} :
    decodeBig n s = .ok x ↔
      ∃ raw ds, checkNumber s = .ok raw ∧ raw.length ≤ 64 ∧ List.Forall₂ IsHexDigit raw ds ∧
        x = Nat.ofDigits 16 ds.reverse := by
  unfold decodeBig
  cases hc : checkNumber s with
  | error e => simp [bind, Except.bind]
  | ok raw =>
    simp only [bind, Except.bind, Except.ok.injEq, exists_and_left, exists_eq_left']
    split_ifs with hlen
    · exact ⟨fun h => h.elim, fun h => absurd h.1 (by omega)⟩
    · -- the words cover all the digits, since there is one more word than the digits fill
      have hcover : raw.length ≤ (raw.length / n + 1) * n := by
        rw [Nat.succ_mul]
        exact (Nat.lt_div_mul_add hn).le
      rw [← List.take_length (l := raw), ← decodeWords_eq_ok hn raw _ _ hcover le_rfl x, List.take_length]
      cases decodeWords n raw (raw.length / n + 1) raw.length with
      | error e => simp
      | ok words => simp [pure, Except.pure, show raw.length ≤ 64 by omega]


/-- What `checkNumber` and the length check ask of the digits, read on their values. -/
theorem digits_canonical_iff {raw : List UInt8} {ds : List Nat} (h : List.Forall₂ IsHexDigit raw ds) :
    (raw ≠ [] ∧ (1 < raw.length → raw.head? ≠ some (ascii '0')) ∧ raw.length ≤ 64) ↔
      (ds = [0] ∨ ∃ d rest, ds = d :: rest ∧ 0 < d ∧ rest.length ≤ 63) := by
  cases h with
  | nil => simp
  | @cons c d cs rest hd hrest =>
    have hlen : cs.length = rest.length := hrest.length_eq
    simp only [ne_eq, reduceCtorEq, not_false_eq_true, List.length_cons, List.head?_cons, Option.some.injEq,
      true_and, List.cons.injEq]
    constructor
    · rintro ⟨hzero, hle⟩
      rcases Nat.eq_zero_or_pos d with rfl | hpos
      · -- a leading 0 stands alone
        have hc : c = ascii '0' := isHexDigit_zero_iff.mp hd
        have hnil : cs = [] := List.eq_nil_of_length_eq_zero (by by_contra hne; exact hzero (by omega) hc)
        subst hnil
        exact .inl ⟨rfl, List.eq_nil_of_length_eq_zero (by simp [← hlen])⟩
      · exact .inr ⟨d, rest, ⟨rfl, rfl⟩, hpos, by omega⟩
    · rintro (⟨rfl, rfl⟩ | ⟨_, _, ⟨rfl, rfl⟩, hpos, hle⟩)
      · rw [List.length_eq_zero_iff.mpr (List.forall₂_nil_right_iff.mp hrest)]
        omega
      · refine ⟨fun _ hc => ?_, by omega⟩
        subst hc
        have := isHexDigit_unique hd (isHexDigit_zero_iff.mpr rfl)
        omega


/-- A quantity is what `checkNumber` passes, no longer than 64 digits, with the digits' value. -/
theorem isQuantity_iff {s : List UInt8} {x : Nat} :
    IsQuantity s x ↔ ∃ raw ds, checkNumber s = .ok raw ∧ raw.length ≤ 64 ∧ List.Forall₂ IsHexDigit raw ds ∧
      x = Nat.ofDigits 16 ds.reverse := by
  simp only [checkNumber_eq_ok]
  constructor
  · rintro ⟨p, cs, ds, rfl, hp, hds, hcanon, rfl⟩
    obtain ⟨hne, hhead, hlen⟩ := (digits_canonical_iff hds).mpr hcanon
    exact ⟨cs, ds, ⟨p, rfl, hp, hne, hhead⟩, hlen, hds, rfl⟩
  · rintro ⟨raw, ds, ⟨p, rfl, hp, hne, hhead⟩, hlen, hds, rfl⟩
    exact ⟨p, raw, ds, rfl, hp, hds, (digits_canonical_iff hds).mp ⟨hne, hhead, hlen⟩, rfl⟩

theorem decodeBig_iff_isQuantity {n : Nat} (hn : 0 < n) {s : List UInt8} {x : Nat} :
    decodeBig n s = .ok x ↔ IsQuantity s x := by
  rw [decodeBig_eq_ok hn, isQuantity_iff]

example : decodeBig 8 [ascii '0', ascii 'X', ascii 'F', ascii 'f', ascii '0'] = .ok 4080 := by decide

example : decodeBig 16 [ascii '0', ascii 'x', ascii '0', ascii '1'] = .error .leadingZero := by decide

/-! ## The encoders -/

theorem hexDigits_eq_map {x : Nat} (hx : 0 < x) :
    hexDigits x = ((Nat.digits 16 x).reverse).map (fun d => ascii (Nat.digitChar d)) := by
  rw [hexDigits, toDigits_eq_digits (by decide) hx, List.map_map]
  rfl

theorem hexDigits_forall₂ {x : Nat} (hx : 0 < x) : List.Forall₂ IsHexDigit (hexDigits x) (Nat.digits 16 x).reverse := by
  rw [hexDigits_eq_map hx, List.forall₂_map_left_iff, List.forall₂_same]
  intro d hd
  exact ⟨Nat.digits_lt_base (by decide) (List.mem_reverse.mp hd), .inl rfl⟩

/-- The most significant hex digit of a positive number is not zero. -/
theorem digits_reverse_eq_cons {x : Nat} (hx : 0 < x) :
    ∃ d rest, (Nat.digits 16 x).reverse = d :: rest ∧ 0 < d := by
  have hne : Nat.digits 16 x ≠ [] := Nat.digits_ne_nil_iff_ne_zero.mpr (by omega)
  obtain ⟨d, rest, hds⟩ := List.exists_cons_of_ne_nil (List.reverse_ne_nil_iff.mpr hne)
  refine ⟨d, rest, hds, Nat.pos_of_ne_zero ?_⟩
  have hlast := Nat.getLast_digit_ne_zero 16 (m := x) (by omega)
  rw [List.getLast_eq_head_reverse] at hlast
  simpa [hds] using hlast

theorem isQuantity_encodeBig {x : Nat} (hx : x < 2 ^ 256) : IsQuantity (encodeBig x) x := by
  unfold encodeBig
  split
  · -- zero is written 0x0
    subst x
    exact ⟨ascii 'x', [ascii '0'], [0], rfl, .inl rfl, .cons (isHexDigit_zero_iff.mpr rfl) .nil, .inl rfl, rfl⟩
  · have hpos : 0 < x := by omega
    obtain ⟨d, rest, hds, hd⟩ := digits_reverse_eq_cons hpos
    have hlen : (Nat.digits 16 x).length ≤ 64 := (Nat.digits_length_le_iff (by decide) x).mpr (by simpa using hx)
    refine ⟨ascii 'x', hexDigits x, (Nat.digits 16 x).reverse, rfl, .inl rfl, hexDigits_forall₂ hpos,
      .inr ⟨d, rest, hds, hd, ?_⟩, by rw [List.reverse_reverse, Nat.ofDigits_digits]⟩
    have := congrArg List.length hds
    simp only [List.length_reverse, List.length_cons] at this
    omega

/-! ## `DecodeUint64` -/

theorem parseDigit_digit : ∀ d : Fin 16,
    parseDigit (ascii (Nat.digitChar d)) = some d ∧ parseDigit (ascii (Nat.digitChar d).toUpper) = some d := by
  decide

theorem parseDigit_of_isHexDigit {c : UInt8} {d : Nat} (h : IsHexDigit c d) : parseDigit c = some d := by
  obtain ⟨hd, rfl | rfl⟩ := h
  · exact (parseDigit_digit ⟨d, hd⟩).1
  · exact (parseDigit_digit ⟨d, hd⟩).2

/-- The loop of `ParseUint` reads hex digits as the fold does, while the value fits in 64 bits. -/
theorem parseUintLoop_eq {cs : List UInt8} {ds : List Nat} (h : List.Forall₂ IsHexDigit cs ds) {w : Nat}
    (hlt : ds.foldl (fun acc d => acc * 16 + d) w < 2 ^ 64) :
    parseUintLoop cs w = .ok (ds.foldl (fun acc d => acc * 16 + d) w) := by
  induction h generalizing w with
  | nil => rfl
  | @cons c d cs ds hd hrest ih =>
    rw [List.foldl_cons] at hlt ⊢
    -- the value so far is below the final one, so neither the cutoff nor the overflow check fires
    have hstep : w * 16 + d < 2 ^ 64 := by
      have hfold := foldl_mul_add (b := 16) ds (w * 16 + d)
      have hle : w * 16 + d ≤ (w * 16 + d) * 16 ^ ds.length := Nat.le_mul_of_pos_right _ (by positivity)
      omega
    have hd16 : d < 16 := hd.1
    rw [parseUintLoop, parseDigit_of_isHexDigit hd]
    dsimp only
    rw [if_neg (by omega), if_neg (by omega), Nat.mod_eq_of_lt (a := w * 16) (by omega), Nat.mod_eq_of_lt hstep,
      if_neg (by omega)]
    exact ih hlt

theorem decodeUint64_of_isQuantity {s : List UInt8} {x : Nat} (h : IsQuantity s x) (hx : x < 2 ^ 64) :
    decodeUint64 s = .ok x := by
  obtain ⟨raw, ds, hc, -, hds, rfl⟩ := isQuantity_iff.mp h
  obtain ⟨-, -, -, hne, -⟩ := checkNumber_eq_ok.mp hc
  have hval : ds.foldl (fun acc d => acc * 16 + d) 0 = Nat.ofDigits 16 ds.reverse := by
    rw [foldl_mul_add, Nat.zero_mul, Nat.zero_add]
  unfold decodeUint64 parseUint
  rw [hc]
  simp only [bind, Except.bind]
  rw [if_neg (by simpa using hne), parseUintLoop_eq hds (hval ▸ hx), hval]
  rfl

theorem encodeUint64_eq_encodeBig (i : UInt64) : encodeUint64 i = encodeBig i.toNat := by
  unfold encodeUint64 encodeBig
  split
  · rename_i h
    rw [h]
    rfl
  · rfl

theorem decodeUint64_encodeUint64 (i : UInt64) : decodeUint64 (encodeUint64 i) = .ok i.toNat := by
  rw [encodeUint64_eq_encodeBig]
  exact decodeUint64_of_isQuantity (isQuantity_encodeBig (lt_trans i.toNat_lt (by decide))) i.toNat_lt

end Etherzero.Hexutil