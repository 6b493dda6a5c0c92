import Mathlib

/-!
# Big-endian byte strings

A natural number written in base 256, most significant byte first: `beBytes n` is the shortest such string (empty for
zero), and `beValue` reads any string back, leading zero bytes included. The two are inverse on the strings that do
not start with a zero byte. Both are Mathlib's `Nat.digits` and `Nat.ofDigits` in base 256, read in the other order.
-/

namespace Etherzero

/-- The shortest big-endian byte string of `n`: no leading zero byte, and empty for zero. -/
def beBytes (n : Nat) : List UInt8 := ((Nat.digits 256 n).map UInt8.ofNat).reverse

/-- The number a big-endian byte string denotes. -/
def beValue (bs : List UInt8) : Nat := Nat.ofDigits 256 (bs.reverse.map UInt8.toNat)

namespace BigEndianAux

theorem toNat_ofNat_digit {n d : Nat} (hd : d ∈ Nat.digits 256 n) : (UInt8.ofNat d).toNat = d := by
  have : d < 256 := Nat.digits_lt_base (by norm_num) hd
  simp [Nat.mod_eq_of_lt this]

theorem map_toNat_digits (n : Nat) : ((Nat.digits 256 n).map UInt8.ofNat).map UInt8.toNat = Nat.digits 256 n := by
  rw [List.map_map]
  conv_rhs => rw [← List.map_id (Nat.digits 256 n)]
  exact List.map_congr_left fun d hd => toNat_ofNat_digit hd

end BigEndianAux

open BigEndianAux

theorem beValue_beBytes (n : Nat) : beValue (beBytes n) = n := by
  simp only [beValue, beBytes, List.reverse_reverse, map_toNat_digits, Nat.ofDigits_digits]

@[simp] theorem beBytes_zero : beBytes 0 = [] := by simp [beBytes]

theorem beBytes_eq_nil_iff {n : Nat} : beBytes n = [] ↔ n = 0 := by
  simp [beBytes, Nat.digits_eq_nil_iff_eq_zero]

theorem length_beBytes (n : Nat) : (beBytes n).length = (Nat.digits 256 n).length := by
  simp [beBytes]

theorem length_beBytes_pos {n : Nat} (h : 0 < n) : 0 < (beBytes n).length := by
  rw [List.length_pos_iff]
  exact fun hn => by simp [beBytes_eq_nil_iff.mp hn] at h

/-- `n` fits in `k` bytes exactly when its shortest string has at most `k` bytes. -/
theorem length_beBytes_le_iff {n k : Nat} : (beBytes n).length ≤ k ↔ n < 256 ^ k := by
  rw [length_beBytes]
  exact Nat.digits_length_le_iff (by norm_num) n

/-- The shortest string never starts with a zero byte. -/
theorem beBytes_head_ne_zero (n : Nat) : (beBytes n).head? ≠ some 0 := by
  intro h
  have hne : Nat.digits 256 n ≠ [] := by
    intro hn
    simp [beBytes, hn] at h
  have hlast := Nat.getLast_digit_ne_zero 256 (Nat.digits_ne_nil_iff_ne_zero.mp hne)
  have hmem : (Nat.digits 256 n).getLast hne ∈ Nat.digits 256 n := List.getLast_mem hne
  have hhead : (beBytes n).head? = some (UInt8.ofNat ((Nat.digits 256 n).getLast hne)) := by
    rw [beBytes, List.head?_reverse, List.getLast?_map, List.getLast?_eq_some_getLast hne]
    rfl
  rw [hhead, Option.some.injEq] at h
  have := congrArg UInt8.toNat h
  rw [toNat_ofNat_digit hmem] at this
  exact hlast (by simpa using this)

theorem beValue_lt (bs : List UInt8) : beValue bs < 256 ^ bs.length := by
  have h := Nat.ofDigits_lt_base_pow_length (b := 256) (l := bs.reverse.map UInt8.toNat) (by norm_num)
    (by
      intro x hx
      simp only [List.mem_map] at hx
      obtain ⟨b, -, rfl⟩ := hx
      exact b.toNat_lt)
  simpa [beValue] using h

/-- Reading appends: the bytes before are worth `256 ^ |after|` each. -/
theorem beValue_append (as bs : List UInt8) : beValue (as ++ bs) = beValue as * 256 ^ bs.length + beValue bs := by
  simp only [beValue, List.reverse_append, List.map_append, Nat.ofDigits_append, List.length_map,
    List.length_reverse]
  ring

@[simp] theorem beValue_nil : beValue [] = 0 := rfl

theorem beValue_singleton (b : UInt8) : beValue [b] = b.toNat := by
  simp [beValue]

/-- A leading zero byte does not change the value. -/
theorem beValue_cons_zero (bs : List UInt8) : beValue (0 :: bs) = beValue bs := by
  rw [show (0 : UInt8) :: bs = [0] ++ bs from rfl, beValue_append, beValue_singleton]
  simp

/-- A string that does not start with a zero byte is the shortest string of its value. -/
theorem beBytes_beValue {bs : List UInt8} (h : bs.head? ≠ some 0) : beBytes (beValue bs) = bs := by
  have hdig : Nat.digits 256 (beValue bs) = bs.reverse.map UInt8.toNat := by
    apply Nat.digits_ofDigits 256 (by norm_num)
    · intro l hl
      simp only [List.mem_map] at hl
      obtain ⟨b, -, rfl⟩ := hl
      exact b.toNat_lt
    · intro hne
      rw [List.getLast_map, List.getLast_reverse]
      intro h0
      apply h
      have hbs : bs ≠ [] := by simpa using hne
      rw [List.head?_eq_some_head hbs]
      congr 1
      exact UInt8.toNat_inj.mp (by simpa using h0)
  rw [beBytes, hdig, List.map_map]
  have : (UInt8.ofNat ∘ UInt8.toNat) = id := by
    funext b
    simp
  rw [this, List.map_id, List.reverse_reverse]

/-! ## Fixed width -/

/-- The `k` low bytes of `n`, most significant first: what `binary.BigEndian.PutUint64` writes for `k = 8`. -/
def beFixed : Nat → Nat → List UInt8
  | 0, _ => []
  | k + 1, n => beFixed k (n / 256) ++ [UInt8.ofNat n]

@[simp] theorem length_beFixed : ∀ k n, (beFixed k n).length = k
  | 0, _ => rfl
  | k + 1, n => by simp [beFixed, length_beFixed k]

/-- Reading the fixed-width string back gives the number modulo `256 ^ k`. -/
theorem beValue_beFixed : ∀ k n, beValue (beFixed k n) = n % 256 ^ k
  | 0, _ => by simp [beFixed, Nat.mod_one]
  | k + 1, n => by
    rw [beFixed, beValue_append, beValue_singleton, beValue_beFixed k, List.length_singleton, pow_one, pow_succ,
      mul_comm (256 ^ k) 256, Nat.mod_mul, UInt8.toNat_ofNat']
    omega

theorem beFixed_injective {k m n : Nat} (hm : m < 256 ^ k) (hn : n < 256 ^ k) (h : beFixed k m = beFixed k n) :
    m = n := by
  have := congrArg beValue h
  rwa [beValue_beFixed, beValue_beFixed, Nat.mod_eq_of_lt hm, Nat.mod_eq_of_lt hn] at this

/-- The fixed-width string depends on the number modulo `256 ^ k` only. -/
theorem beFixed_mod : ∀ k n, beFixed k (n % 256 ^ k) = beFixed k n
  | 0, _ => rfl
  | k + 1, n => by
    have hdiv : n % 256 ^ (k + 1) / 256 = n / 256 % 256 ^ k := by
      rw [pow_succ, mul_comm, Nat.mod_mul_right_div_self]
    have hdvd : 2 ^ 8 ∣ 256 ^ (k + 1) := by
      rw [pow_succ]
      exact Dvd.intro_left _ rfl
    have hbyte : UInt8.ofNat (n % 256 ^ (k + 1)) = UInt8.ofNat n := by
      apply UInt8.toNat_inj.mp
      rw [UInt8.toNat_ofNat', UInt8.toNat_ofNat', Nat.mod_mod_of_dvd n hdvd]
    rw [beFixed, beFixed, hdiv, beFixed_mod k, hbyte]

end Etherzero
