import Mathlib
import Etherzero.Lib.BigEndian
import Etherzero.Lib.StateExcept
import Etherzero.Rlp.Stream
import Etherzero.Rlp.Item

/-!
# The stream reads what the input holds

`s.consume n` is the stream after `n` more bytes were read from it: the reader, the input limit and the innermost
open list have moved on by `n`, and the cached type information is forgotten. For each stream method the lemmas
below say when it returns and to which state (`_ok`), and what its returning implies of the stream it started from
(`_inv`). A stream is limited throughout: `DecodeBytes` builds it so.
-/

namespace Etherzero.Rlp

/-- The open lists after `n` more bytes were read in the innermost one. -/
def advanceTop : List Listpos → Nat → List Listpos
  | [], _ => []
  | tos :: rest, n => { tos with pos := tos.pos + n } :: rest

@[simp] theorem advanceTop_nil (n : Nat) : advanceTop [] n = [] := rfl

@[simp] theorem advanceTop_cons (tos : Listpos) (rest : List Listpos) (n : Nat) :
    advanceTop (tos :: rest) n = { tos with pos := tos.pos + n } :: rest := rfl

@[simp] theorem advanceTop_zero (st : List Listpos) : advanceTop st 0 = st := by
  cases st <;> rfl

theorem advanceTop_add (st : List Listpos) (a b : Nat) : advanceTop (advanceTop st a) b = advanceTop st (a + b) := by
  cases st with
  | nil => rfl
  | cons tos rest => simp [Nat.add_assoc]

namespace Stream

/-- The next `n` bytes fit in the input limit and in the rest of the innermost list: the checks of `willRead`. -/
def Fits (s : Stream) (n : Nat) : Prop :=
  n ≤ s.remaining ∧ ∀ tos ∈ s.stack.head?, n ≤ tos.size - tos.pos

/-- The stream after `willRead n`. -/
def advance (s : Stream) (n : Nat) : Stream :=
  { s with kind := none, remaining := s.remaining - n, stack := advanceTop s.stack n }

/-- The stream after `n` bytes were read. -/
def consume (s : Stream) (n : Nat) : Stream := { s.advance n with r := s.r.drop n }

@[simp] theorem consume_r (s : Stream) (n : Nat) : (s.consume n).r = s.r.drop n := rfl
@[simp] theorem consume_kind (s : Stream) (n : Nat) : (s.consume n).kind = none := rfl
@[simp] theorem consume_limited (s : Stream) (n : Nat) : (s.consume n).limited = s.limited := rfl
@[simp] theorem consume_remaining (s : Stream) (n : Nat) : (s.consume n).remaining = s.remaining - n := rfl
@[simp] theorem consume_stack (s : Stream) (n : Nat) : (s.consume n).stack = advanceTop s.stack n := rfl

theorem consume_consume (s : Stream) (a b : Nat) : (s.consume a).consume b = s.consume (a + b) := by
  simp [consume, advance, List.drop_drop, Nat.sub_sub, advanceTop_add]

@[simp] theorem consume_byteval (s : Stream) (b : UInt8) (n : Nat) :
    ({ s with byteval := b } : Stream).consume n = { s.consume n with byteval := b } := rfl

theorem Fits.mono {s : Stream} {m n : Nat} (h : s.Fits n) (hmn : m ≤ n) : s.Fits m :=
  ⟨by have := h.1; omega, fun tos ht => by have := h.2 tos ht; omega⟩

/-- What fits after reading `m` bytes of a stretch of `m + n` that fitted. -/
theorem Fits.consume {s : Stream} {m n : Nat} (h : s.Fits (m + n)) : (s.consume m).Fits n := by
  refine ⟨by simp only [consume_remaining]; have := h.1; omega, fun tos ht => ?_⟩
  cases hst : s.stack with
  | nil => simp [hst] at ht
  | cons t rest =>
    simp only [consume_stack, hst, advanceTop_cons, List.head?_cons, Option.mem_def, Option.some.injEq] at ht
    subst ht
    have := h.2 t (by simp [hst])
    simp only
    omega

theorem willRead_ok {s : Stream} {n : Nat} (hl : s.limited = true) (hf : s.Fits n) :
    exec (willRead n) s = (.ok (), s.advance n) := by
  obtain ⟨hr, hs⟩ := hf
  have hr' : ¬ s.remaining < n := Nat.not_lt.mpr hr
  unfold willRead rearm
  cases hst : s.stack with
  | nil => simp [exec_bind, hst, hl, hr', advance]
  | cons tos rest =>
    have ht : ¬ tos.size - tos.pos < n := Nat.not_lt.mpr (hs tos (by simp [hst]))
    simp [exec_bind, hst, hl, hr', ht, advance]

theorem willRead_inv {s s' : Stream} {n : Nat} {u : Unit} (hl : s.limited = true)
    (h : exec (willRead n) s = (.ok u, s')) : s.Fits n ∧ s' = s.advance n := by
  by_cases hf : s.Fits n
  · rw [willRead_ok hl hf] at h
    exact ⟨hf, (Prod.mk.inj h).2.symm⟩
  · exfalso
    unfold Fits at hf
    unfold willRead rearm at h
    cases hst : s.stack with
    | nil =>
      have hr : s.remaining < n := by simpa [hst] using hf
      simp [exec_bind, hst, hl, hr] at h
    | cons tos rest =>
      by_cases ht : tos.size - tos.pos < n
      · simp [exec_bind, hst, ht] at h
      · have hr : s.remaining < n := by
          by_contra hr
          exact hf ⟨by omega, by simp [hst]; omega⟩
        simp [exec_bind, hst, hl, ht, hr] at h

theorem readByte_ok {s : Stream} {b : UInt8} {rest : List UInt8} (hl : s.limited = true) (hf : s.Fits 1)
    (hr : s.r = b :: rest) : exec readByte s = (.ok b, s.consume 1) := by
  unfold readByte
  rw [exec_bind_ok (willRead_ok hl hf)]
  simp [exec_bind, exec_map, advance, hr, consume]

theorem readByte_inv {s s' : Stream} {b : UInt8} (hl : s.limited = true) (h : exec readByte s = (.ok b, s')) :
    s.Fits 1 ∧ s.r = b :: s'.r ∧ s' = s.consume 1 := by
  unfold readByte at h
  obtain ⟨u, s₁, hw, h⟩ := exec_bind_eq_ok h
  obtain ⟨hf, rfl⟩ := willRead_inv hl hw
  cases hr : s.r with
  | nil => simp [exec_bind, advance, hr] at h
  | cons b' rest =>
    simp only [exec_bind, exec_get, advance, hr] at h
    simp only [exec_set, exec_pure, Prod.mk.injEq, Except.ok.injEq] at h
    obtain ⟨rfl, rfl⟩ := h
    exact ⟨hf, rfl, by simp [consume, advance, hr]⟩

theorem readFull_ok {s : Stream} {n : Nat} (hl : s.limited = true) (hf : s.Fits n) (hn : n ≤ s.r.length) :
    exec (readFull n) s = (.ok (s.r.take n), s.consume n) := by
  unfold readFull
  rw [exec_bind_ok (willRead_ok hl hf)]
  have hn' : ¬ s.r.length < n := Nat.not_lt.mpr hn
  simp [exec_bind, exec_map, advance, hn', consume]

theorem readFull_inv {s s' : Stream} {n : Nat} {bs : List UInt8} (hl : s.limited = true)
    (h : exec (readFull n) s = (.ok bs, s')) :
    s.Fits n ∧ n ≤ s.r.length ∧ bs = s.r.take n ∧ s' = s.consume n := by
  unfold readFull at h
  obtain ⟨u, s₁, hw, h⟩ := exec_bind_eq_ok h
  obtain ⟨hf, rfl⟩ := willRead_inv hl hw
  by_cases hn : (s.advance n).r.length < n
  · simp [exec_bind, hn] at h
  · simp only [exec_bind, exec_get, exec_set, hn, if_false, exec_pure, Prod.mk.injEq, Except.ok.injEq] at h
    obtain ⟨rfl, rfl⟩ := h
    exact ⟨hf, by simpa [advance] using hn, rfl, rfl⟩

/-- `s'` is `s` after `n` bytes were read and the value they held was decoded: the reader, the input limit and the
innermost list moved on by `n` and nothing is cached; the cached size, byte and error are as they fell. -/
structure Read (s s' : Stream) (n : Nat) : Prop where
  r : s'.r = s.r.drop n
  remaining : s'.remaining = s.remaining - n
  limited : s'.limited = s.limited
  kind : s'.kind = none
  stack : s'.stack = advanceTop s.stack n

theorem Read.consume (s : Stream) (n : Nat) : Read s (s.consume n) n := ⟨rfl, rfl, rfl, rfl, rfl⟩

theorem Read.trans {s s₁ s₂ : Stream} {a b : Nat} (h₁ : Read s s₁ a) (h₂ : Read s₁ s₂ b) : Read s s₂ (a + b) :=
  ⟨by rw [h₂.r, h₁.r, List.drop_drop], by rw [h₂.remaining, h₁.remaining, Nat.sub_sub],
    by rw [h₂.limited, h₁.limited], h₂.kind, by rw [h₂.stack, h₁.stack, advanceTop_add]⟩

/-- What fits after reading `a` bytes of a stretch of `a + b` that fitted. -/
theorem Read.fits {s s' : Stream} {a b : Nat} (h : Read s s' a) (hf : s.Fits (a + b)) : s'.Fits b := by
  have hc := Fits.consume hf
  exact ⟨by rw [h.remaining]; exact hc.1, by rw [h.stack]; exact hc.2⟩

/-- `readUint` on the big-endian bytes of a positive number, as a long header holds them. -/
theorem readUint_ok {s : Stream} {n : Nat} {rest : List UInt8} (hl : s.limited = true) (hpos : 0 < n)
    (hf : s.Fits (beBytes n).length) (hr : s.r = beBytes n ++ rest) :
    exec (readUint (beBytes n).length) s = (.ok n, s.consume (beBytes n).length) := by
  rcases Nat.lt_or_ge n 256 with hn | hn
  · have hd : beBytes n = [UInt8.ofNat n] := by
      simp [beBytes, Nat.digits_of_lt 256 n (by omega) hn]
    rw [hd] at hf hr ⊢
    simp only [List.length_singleton, readUint]
    rw [exec_bind_ok (readByte_ok hl hf (by simpa using hr))]
    simp [UInt8.toNat_ofNat_of_lt' hn]
  · have h2 : 2 ≤ (beBytes n).length := by
      by_contra hlt
      have : n < 256 ^ 1 := length_beBytes_le_iff.mp (by omega)
      omega
    obtain ⟨k, hk⟩ : ∃ k, (beBytes n).length = k + 2 := ⟨_, (Nat.sub_add_cancel h2).symm⟩
    have hfull := readFull_ok hl hf (by rw [hr]; simp)
    have htake : s.r.take (beBytes n).length = beBytes n := by rw [hr]; simp
    rw [htake] at hfull
    rw [hk] at hfull ⊢
    simp only [readUint]
    rw [exec_bind_ok hfull, if_neg (beBytes_head_ne_zero n), beValue_beBytes]
    simp

/-- A number `readUint` returns was read from `size` bytes in big endian, without a leading zero when there are
two or more. -/
theorem readUint_inv {s s' : Stream} {size v : Nat} (hl : s.limited = true) (hsz : 0 < size)
    (h : exec (readUint size) s = (.ok v, s')) :
    ∃ bs, s.r = bs ++ s'.r ∧ bs.length = size ∧ v = beValue bs ∧ (2 ≤ size → bs.head? ≠ some 0) ∧
      s' = s.consume size := by
  match size, hsz with
  | 1, _ =>
    simp only [readUint] at h
    obtain ⟨b, s₁, hb, h⟩ := exec_bind_eq_ok h
    obtain ⟨-, hr, rfl⟩ := readByte_inv hl hb
    simp only [exec_pure, Prod.mk.injEq, Except.ok.injEq] at h
    obtain ⟨rfl, rfl⟩ := h
    exact ⟨[b], hr, rfl, (beValue_singleton b).symm, by omega, rfl⟩
  | k + 2, _ =>
    simp only [readUint] at h
    obtain ⟨buf, s₁, hb, h⟩ := exec_bind_eq_ok h
    obtain ⟨-, hn, rfl, rfl⟩ := readFull_inv hl hb
    split at h
    · simp at h
    · rename_i hz
      simp only [exec_pure, Prod.mk.injEq, Except.ok.injEq] at h
      obtain ⟨rfl, rfl⟩ := h
      refine ⟨s.r.take (k + 2), by simp, by simpa using hn, rfl, fun _ => hz, rfl⟩

theorem toNat_ofNat_small {n : Nat} (h : n < 256) : (UInt8.ofNat n).toNat = n := by
  rw [UInt8.toNat_ofNat']
  exact Nat.mod_eq_of_lt (by simpa using h)

/-- A tag plus a small number, as a header byte holds it. -/
theorem tag_add_toNat {t : UInt8} {n : Nat} (h : t.toNat + n < 256) : (t + UInt8.ofNat n).toNat = t.toNat + n := by
  rw [UInt8.toNat_add, UInt8.toNat_ofNat', Nat.mod_eq_of_lt (by omega : n < 2 ^ 8)]
  exact Nat.mod_eq_of_lt h

theorem tag_add_lt_iff {t : UInt8} {n : Nat} (h : t.toNat + n < 256) (c : UInt8) :
    t + UInt8.ofNat n < c ↔ t.toNat + n < c.toNat := by
  rw [UInt8.lt_iff_toNat_lt, tag_add_toNat h]

/-- The number a header byte adds to its tag, as `readKind` takes it back. -/
theorem tag_add_sub {t : UInt8} {n : Nat} (h : t.toNat + n < 256) : (t + UInt8.ofNat n - t).toNat = n := by
  rw [UInt8.toNat_sub_of_le _ _ (by rw [UInt8.le_iff_toNat_le, tag_add_toNat h]; omega), tag_add_toNat h]
  omega

/-- The length of the length of a payload below `2 ^ 64`: one to eight bytes. -/
theorem length_beBytes_of_ge {n : Nat} (h56 : 56 ≤ n) (hn : n < 2 ^ 64) :
    1 ≤ (beBytes n).length ∧ (beBytes n).length ≤ 8 :=
  ⟨length_beBytes_pos (by omega), length_beBytes_le_iff.mpr (by simpa using hn)⟩

/-- The length of a long header, after its first byte: `readUint` reads it back. -/
theorem readUint_long {s : Stream} {n : Nat} {b : UInt8} {rest : List UInt8} (hl : s.limited = true)
    (h56 : 56 ≤ n) (hf : s.Fits (1 + (beBytes n).length)) (hr : s.r = b :: beBytes n ++ rest) :
    exec (observing (readUint (beBytes n).length)) { s.consume 1 with byteval := 0 } =
      (.ok (.ok n), { s.consume (1 + (beBytes n).length) with byteval := 0 }) := by
  have hr' : ({ s.consume 1 with byteval := 0 } : Stream).r = beBytes n ++ rest := by simp [hr]
  have hu := readUint_ok (s := { s.consume 1 with byteval := 0 }) hl (by omega) (Fits.consume hf) hr'
  rw [exec_observing, hu]
  simp only
  rw [show ({ s.consume 1 with byteval := 0 } : Stream).consume (beBytes n).length =
    { s.consume (1 + (beBytes n).length) with byteval := 0 } from by rw [← consume_consume]; rfl]

/-- The header of a string: `readKind` reads its length, in one byte below 56 and in big endian above. -/
theorem readKind_string_ok {s : Stream} {n : Nat} {rest : List UInt8} (hl : s.limited = true) (hn : n < 2 ^ 64)
    (hf : s.Fits (lengthPrefix 0x80 0xB7 n).length) (hr : s.r = lengthPrefix 0x80 0xB7 n ++ rest) :
    exec readKind s = (.ok (.string, n, none), { s.consume (lengthPrefix 0x80 0xB7 n).length with byteval := 0 }) := by
  unfold lengthPrefix at hf hr ⊢
  unfold readKind
  split
  · rename_i h56
    have ht : (0x80 : UInt8).toNat + n < 256 := by simp only [UInt8.reduceToNat]; omega
    have h1 : ¬ (0x80 + UInt8.ofNat n : UInt8) < 0x80 := by
      rw [tag_add_lt_iff ht]; simp only [UInt8.reduceToNat]; omega
    have h2 : (0x80 + UInt8.ofNat n : UInt8) < 0xB8 := by
      rw [tag_add_lt_iff ht]; simp only [UInt8.reduceToNat]; omega
    rw [if_pos h56] at hf hr
    rw [exec_bind_ok (by rw [exec_observing, readByte_ok hl hf (by simpa using hr)])]
    simp only [exec_bind, exec_modify, if_neg h1, if_pos h2, tag_add_sub ht, exec_pure]
    rfl
  · rename_i h56
    obtain ⟨hL1, hL8⟩ := length_beBytes_of_ge (by omega) hn
    have ht : (0xB7 : UInt8).toNat + (beBytes n).length < 256 := by simp only [UInt8.reduceToNat]; omega
    have h1 : ¬ (0xB7 + UInt8.ofNat (beBytes n).length : UInt8) < 0x80 := by
      rw [tag_add_lt_iff ht]; simp only [UInt8.reduceToNat]; omega
    have h2 : ¬ (0xB7 + UInt8.ofNat (beBytes n).length : UInt8) < 0xB8 := by
      rw [tag_add_lt_iff ht]; simp only [UInt8.reduceToNat]; omega
    have h3 : (0xB7 + UInt8.ofNat (beBytes n).length : UInt8) < 0xC0 := by
      rw [tag_add_lt_iff ht]; simp only [UInt8.reduceToNat]; omega
    rw [if_neg h56] at hf hr
    have hf1 : s.Fits (1 + (beBytes n).length) := by simpa [Nat.add_comm] using hf
    rw [exec_bind_ok (by rw [exec_observing, readByte_ok hl (hf1.mono (by omega)) (by simpa using hr)])]
    simp only [exec_bind, exec_modify, if_neg h1, if_neg h2, if_pos h3, tag_add_sub ht]
    rw [readUint_long hl (by omega) hf1 (by simpa using hr)]
    simp [Nat.not_lt.mpr (show 56 ≤ n by omega), Nat.add_comm]

/-- The header of a list, as `readKind_string_ok` for strings. -/
theorem readKind_list_ok {s : Stream} {n : Nat} {rest : List UInt8} (hl : s.limited = true) (hn : n < 2 ^ 64)
    (hf : s.Fits (lengthPrefix 0xC0 0xF7 n).length) (hr : s.r = lengthPrefix 0xC0 0xF7 n ++ rest) :
    exec readKind s = (.ok (.list, n, none), { s.consume (lengthPrefix 0xC0 0xF7 n).length with byteval := 0 }) := by
  unfold lengthPrefix at hf hr ⊢
  unfold readKind
  split
  · rename_i h56
    have ht : (0xC0 : UInt8).toNat + n < 256 := by simp only [UInt8.reduceToNat]; omega
    have h1 : ¬ (0xC0 + UInt8.ofNat n : UInt8) < 0x80 := by
      rw [tag_add_lt_iff ht]; simp only [UInt8.reduceToNat]; omega
    have h2 : ¬ (0xC0 + UInt8.ofNat n : UInt8) < 0xB8 := by
      rw [tag_add_lt_iff ht]; simp only [UInt8.reduceToNat]; omega
    have h3 : ¬ (0xC0 + UInt8.ofNat n : UInt8) < 0xC0 := by
      rw [tag_add_lt_iff ht]; simp only [UInt8.reduceToNat]; omega
    have h4 : (0xC0 + UInt8.ofNat n : UInt8) < 0xF8 := by
      rw [tag_add_lt_iff ht]; simp only [UInt8.reduceToNat]; omega
    rw [if_pos h56] at hf hr
    rw [exec_bind_ok (by rw [exec_observing, readByte_ok hl hf (by simpa using hr)])]
    simp only [exec_bind, exec_modify, if_neg h1, if_neg h2, if_neg h3, if_pos h4, tag_add_sub ht, exec_pure]
    rfl
  · rename_i h56
    obtain ⟨hL1, hL8⟩ := length_beBytes_of_ge (by omega) hn
    have ht : (0xF7 : UInt8).toNat + (beBytes n).length < 256 := by simp only [UInt8.reduceToNat]; omega
    have h1 : ¬ (0xF7 + UInt8.ofNat (beBytes n).length : UInt8) < 0x80 := by
      rw [tag_add_lt_iff ht]; simp only [UInt8.reduceToNat]; omega
    have h2 : ¬ (0xF7 + UInt8.ofNat (beBytes n).length : UInt8) < 0xB8 := by
      rw [tag_add_lt_iff ht]; simp only [UInt8.reduceToNat]; omega
    have h3 : ¬ (0xF7 + UInt8.ofNat (beBytes n).length : UInt8) < 0xC0 := by
      rw [tag_add_lt_iff ht]; simp only [UInt8.reduceToNat]; omega
    have h4 : ¬ (0xF7 + UInt8.ofNat (beBytes n).length : UInt8) < 0xF8 := by
      rw [tag_add_lt_iff ht]; simp only [UInt8.reduceToNat]; omega
    rw [if_neg h56] at hf hr
    have hf1 : s.Fits (1 + (beBytes n).length) := by simpa [Nat.add_comm] using hf
    rw [exec_bind_ok (by rw [exec_observing, readByte_ok hl (hf1.mono (by omega)) (by simpa using hr)])]
    simp only [exec_bind, exec_modify, if_neg h1, if_neg h2, if_neg h3, if_neg h4, tag_add_sub ht]
    rw [readUint_long hl (by omega) hf1 (by simpa using hr)]
    simp [Nat.not_lt.mpr (show 56 ≤ n by omega), Nat.add_comm]

/-- A byte below `0x80` is a value of its own. -/
theorem readKind_byte_ok {s : Stream} {b : UInt8} {rest : List UInt8} (hl : s.limited = true) (hb : b < 0x80)
    (hf : s.Fits 1) (hr : s.r = b :: rest) :
    exec readKind s = (.ok (.byte, 0, none), { s.consume 1 with byteval := b }) := by
  unfold readKind
  rw [exec_bind_ok (by rw [exec_observing, readByte_ok hl hf hr])]
  simp only [exec_bind, exec_modify, if_pos hb, exec_pure]

/-- The bytes `readKind` took for a value of kind `k` and size `n`: the byte itself, or the canonical header. -/
def header : Rlp.Kind → Nat → UInt8 → List UInt8
  | .byte, _, b => [b]
  | .string, n, _ => lengthPrefix 0x80 0xB7 n
  | .list, n, _ => lengthPrefix 0xC0 0xF7 n

@[simp] theorem header_byte (n : Nat) (b : UInt8) : header .byte n b = [b] := rfl
@[simp] theorem header_string (n : Nat) (b : UInt8) : header .string n b = lengthPrefix 0x80 0xB7 n := rfl
@[simp] theorem header_list (n : Nat) (b : UInt8) : header .list n b = lengthPrefix 0xC0 0xF7 n := rfl

/-- A short header byte is the canonical prefix of the size it holds. -/
theorem lengthPrefix_short {t l b : UInt8} (htb : t ≤ b) (h56 : (b - t).toNat < 56) :
    lengthPrefix t l (b - t).toNat = [b] := by
  unfold lengthPrefix
  rw [if_pos h56, UInt8.ofNat_toNat, add_sub_cancel]

/-- A long header byte and the canonical length after it are the canonical prefix of the size. -/
theorem lengthPrefix_long {t l b : UInt8} {size : Nat} (hlb : l ≤ b) (h56 : 56 ≤ size)
    (hlen : (beBytes size).length = (b - l).toNat) : lengthPrefix t l size = b :: beBytes size := by
  unfold lengthPrefix
  rw [if_neg (by omega), hlen, UInt8.ofNat_toNat, add_sub_cancel]

/-- The first byte of a length prefix lies in the 64 values from its short tag, and is the tag itself only for
the empty payload. -/
theorem lengthPrefix_head {t l : UInt8} {n : Nat} (hn : n < 2 ^ 64) (ht : t.toNat + 64 ≤ 256)
    (hl : l.toNat = t.toNat + 55) :
    ∃ c rest, lengthPrefix t l n = c :: rest ∧ t.toNat ≤ c.toNat ∧ c.toNat < t.toNat + 64 ∧ (c = t → n = 0) := by
  unfold lengthPrefix
  split
  · rename_i h56
    have hc := tag_add_toNat (t := t) (n := n) (by omega)
    refine ⟨_, _, rfl, by omega, by omega, fun h => ?_⟩
    rw [h] at hc
    omega
  · rename_i h56
    obtain ⟨h1, h8⟩ := length_beBytes_of_ge (by omega) hn
    have hc := tag_add_toNat (t := l) (n := (beBytes n).length) (by omega)
    refine ⟨_, _, rfl, by omega, by omega, fun h => ?_⟩
    rw [h] at hc
    omega

/-- A value whose header starts like the encoding of an empty string or list has an empty payload, and is not a
single byte. -/
theorem header_empty {k : Rlp.Kind} {n : Nat} {bv : UInt8} {i : Item} {X Y : List UInt8}
    (hb : k = .byte → n = 0 ∧ bv < 0x80) (hn : n < 2 ^ 64) (hi : i.isEmpty = true)
    (h : header k n bv ++ X = i.encode ++ Y) : n = 0 ∧ k ≠ .byte := by
  obtain ⟨e, hei, he⟩ : ∃ e : UInt8, i.encode = [e] ∧ (e.toNat = 128 ∨ e.toNat = 192) := by
    match i, hi with
    | .str [], _ => exact ⟨0x80, by decide, by decide⟩
    | .list [], _ => exact ⟨0xC0, by decide, by decide⟩
  rw [hei] at h
  cases k with
  | byte =>
    simp only [header_byte, List.singleton_append, List.cons.injEq] at h
    have hlt := UInt8.lt_iff_toNat_lt.mp (hb rfl).2
    rw [h.1] at hlt
    simp at hlt
    omega
  | string =>
    obtain ⟨c, rest, hc, hlo, hhi, h0⟩ := lengthPrefix_head (t := 0x80) (l := 0xB7) hn (by decide) (by decide)
    simp only [header_string, hc, List.cons_append, List.singleton_append, List.cons.injEq] at h
    rw [← h.1] at he
    simp only [UInt8.reduceToNat] at hlo hhi
    exact ⟨h0 (UInt8.toNat_inj.mp (by simp; omega)), nofun⟩
  | list =>
    obtain ⟨c, rest, hc, hlo, hhi, h0⟩ := lengthPrefix_head (t := 0xC0) (l := 0xF7) hn (by decide) (by decide)
    simp only [header_list, hc, List.cons_append, List.singleton_append, List.cons.injEq] at h
    rw [← h.1] at he
    simp only [UInt8.reduceToNat] at hlo hhi
    exact ⟨h0 (UInt8.toNat_inj.mp (by simp; omega)), nofun⟩

/-- The size in a long header, as `readUint` returned it: its bytes are canonical once it is at least 56. -/
theorem readUint_long_inv {s s' : Stream} {L size : Nat} (hl : s.limited = true) (hL : 0 < L)
    (h : exec (readUint L) s = (.ok size, s')) (h56 : 56 ≤ size) :
    s.r = beBytes size ++ s'.r ∧ (beBytes size).length = L ∧ s' = s.consume L := by
  obtain ⟨bs, hr, hlen, rfl, hz, rfl⟩ := readUint_inv hl hL h
  have hz' : bs.head? ≠ some 0 := by
    rcases (show L = 1 ∨ 2 ≤ L by omega) with rfl | h2
    · match bs, hlen with
      | [c], _ =>
        intro hc
        simp only [List.head?_cons, Option.some.injEq] at hc
        subst hc
        simp [beValue_singleton] at h56
    · exact hz h2
  rw [beBytes_beValue hz']
  exact ⟨hr, hlen, rfl⟩

theorem tag_le_of_not_lt {b c : UInt8} (h : ¬ b < c) : c ≤ b := by
  simpa [UInt8.le_iff_toNat_le, UInt8.lt_iff_toNat_lt] using h

/-- The number in a header byte between two tags, below the length of the next range. -/
theorem tag_sub_lt {b t c : UInt8} (h₁ : ¬ b < t) (h₂ : b < c) : (b - t).toNat < c.toNat - t.toNat := by
  rw [UInt8.toNat_sub_of_le _ _ (tag_le_of_not_lt h₁)]
  rw [UInt8.lt_iff_toNat_lt] at h₂
  have := UInt8.le_iff_toNat_le.mp (tag_le_of_not_lt h₁)
  omega

theorem tag_le_of_not_lt_of_le {b c t : UInt8} (h : ¬ b < c) (htc : t ≤ c) : t ≤ b := by
  have := UInt8.le_iff_toNat_le.mp (tag_le_of_not_lt h)
  have := UInt8.le_iff_toNat_le.mp htc
  exact UInt8.le_iff_toNat_le.mpr (by omega)

theorem tag_sub_pos {b t c : UInt8} (h : ¬ b < c) (htc : t < c) : 0 < (b - t).toNat := by
  have hcb := UInt8.le_iff_toNat_le.mp (tag_le_of_not_lt h)
  have htc' := UInt8.lt_iff_toNat_lt.mp htc
  rw [UInt8.toNat_sub_of_le _ _ (UInt8.le_iff_toNat_le.mpr (by omega))]
  omega

/-- A long header holds at most eight bytes of size: the size is a `uint64`. -/
theorem size_lt_of_long {b t : UInt8} {size : Nat} (htb : t ≤ b) (hb : b.toNat ≤ t.toNat + 8)
    (hlen : (beBytes size).length = (b - t).toNat) : size < 2 ^ 64 := by
  have h8 : (beBytes size).length ≤ 8 := by
    rw [hlen, UInt8.toNat_sub_of_le _ _ htb]
    omega
  simpa using length_beBytes_le_iff.mp h8

/-- What a `readKind` that found no error implies: the input started with the value's byte or canonical header,
whose size is a `uint64`. -/
theorem readKind_inv {s s' : Stream} {k : Rlp.Kind} {n : Nat} (hl : s.limited = true)
    (h : exec readKind s = (.ok (k, n, none), s')) :
    ∃ bv, s.r = header k n bv ++ s'.r ∧ s' = { s.consume (header k n bv).length with byteval := bv } ∧
      (k = .byte → n = 0 ∧ bv < 0x80) ∧ (k ≠ .byte → bv = 0) ∧ n < 2 ^ 64 := by
  unfold readKind at h
  obtain ⟨r, s₁, hb, h⟩ := exec_bind_eq_ok h
  rw [exec_observing] at hb
  rcases hrb : exec readByte s with ⟨_ | b, s₂⟩
  · rw [hrb] at hb
    simp only [Prod.mk.injEq, Except.ok.injEq] at hb
    obtain ⟨rfl, rfl⟩ := hb
    simp [exec_map] at h
  rw [hrb] at hb
  simp only [Prod.mk.injEq, Except.ok.injEq] at hb
  obtain ⟨rfl, rfl⟩ := hb
  obtain ⟨-, hr, rfl⟩ := readByte_inv hl hrb
  simp only [exec_bind, exec_modify] at h
  by_cases h1 : b < 0x80
  · simp only [if_pos h1] at h
    obtain ⟨⟨rfl, rfl, -⟩, rfl⟩ := h
    exact ⟨b, hr, rfl, fun _ => ⟨rfl, h1⟩, fun h => absurd rfl h, Nat.two_pow_pos 64⟩
  rw [if_neg h1] at h
  by_cases h2 : b < 0xB8
  · simp only [if_pos h2, exec_pure, Prod.mk.injEq, Except.ok.injEq] at h
    obtain ⟨⟨rfl, rfl, -⟩, rfl⟩ := h
    have hs : (b - 0x80).toNat < 56 := by simpa using tag_sub_lt h1 h2
    refine ⟨0, ?_, ?_, nofun, fun _ => rfl, by omega⟩
    · simp only [header, lengthPrefix_short (tag_le_of_not_lt h1) hs]
      exact hr
    · simp only [header, lengthPrefix_short (tag_le_of_not_lt h1) hs]
      rfl
  rw [if_neg h2] at h
  by_cases h3 : b < 0xC0
  · rw [if_pos h3] at h
    obtain ⟨r, s₃, hu, h⟩ := exec_bind_eq_ok h
    rw [exec_observing] at hu
    rcases hru : exec (readUint (b - 0xB7).toNat) { s.consume 1 with byteval := 0 } with ⟨_ | size, s₄⟩
    · rw [hru] at hu
      simp only [Prod.mk.injEq, Except.ok.injEq] at hu
      obtain ⟨rfl, rfl⟩ := hu
      simp at h
    rw [hru] at hu
    simp only [Prod.mk.injEq, Except.ok.injEq] at hu
    obtain ⟨rfl, rfl⟩ := hu
    by_cases h56 : size < 56
    · simp [h56] at h
    simp only [if_neg h56, exec_pure, Prod.mk.injEq, Except.ok.injEq] at h
    obtain ⟨⟨rfl, rfl, -⟩, rfl⟩ := h
    obtain ⟨hr', hlen, rfl⟩ := readUint_long_inv (s := { s.consume 1 with byteval := 0 }) hl
      (tag_sub_pos (t := 0xB7) h2 (by decide)) hru (by omega)
    have hp := lengthPrefix_long (t := 0x80) (tag_le_of_not_lt_of_le h2 (by decide)) (by omega) hlen
    have hsz := size_lt_of_long (tag_le_of_not_lt_of_le h2 (by decide)) (by have := UInt8.lt_iff_toNat_lt.mp h3; simp at this ⊢; omega) hlen
    refine ⟨0, ?_, ?_, nofun, fun _ => rfl, hsz⟩
    · simp only [header, hp, List.cons_append]
      rw [hr]
      simpa using hr'
    · simp only [header, hp, List.length_cons, hlen, consume_byteval, consume_consume, Nat.add_comm]
  rw [if_neg h3] at h
  by_cases h4 : b < 0xF8
  · simp only [if_pos h4, exec_pure, Prod.mk.injEq, Except.ok.injEq] at h
    obtain ⟨⟨rfl, rfl, -⟩, rfl⟩ := h
    have hs : (b - 0xC0).toNat < 56 := by simpa using tag_sub_lt h3 h4
    refine ⟨0, ?_, ?_, nofun, fun _ => rfl, by omega⟩
    · simp only [header, lengthPrefix_short (tag_le_of_not_lt h3) hs]
      exact hr
    · simp only [header, lengthPrefix_short (tag_le_of_not_lt h3) hs]
      rfl
  rw [if_neg h4] at h
  obtain ⟨r, s₃, hu, h⟩ := exec_bind_eq_ok h
  rw [exec_observing] at hu
  rcases hru : exec (readUint (b - 0xF7).toNat) { s.consume 1 with byteval := 0 } with ⟨_ | size, s₄⟩
  · rw [hru] at hu
    simp only [Prod.mk.injEq, Except.ok.injEq] at hu
    obtain ⟨rfl, rfl⟩ := hu
    simp at h
  rw [hru] at hu
  simp only [Prod.mk.injEq, Except.ok.injEq] at hu
  obtain ⟨rfl, rfl⟩ := hu
  by_cases h56 : size < 56
  · simp [h56] at h
  simp only [if_neg h56, exec_pure, Prod.mk.injEq, Except.ok.injEq] at h
  obtain ⟨⟨rfl, rfl, -⟩, rfl⟩ := h
  obtain ⟨hr', hlen, rfl⟩ := readUint_long_inv (s := { s.consume 1 with byteval := 0 }) hl
    (tag_sub_pos (t := 0xF7) h4 (by decide)) hru (by omega)
  have hp := lengthPrefix_long (t := 0xC0) (tag_le_of_not_lt_of_le h4 (by decide)) (by omega) hlen
  have hsz := size_lt_of_long (tag_le_of_not_lt_of_le h4 (by decide)) (by have := b.toNat_lt; simp; omega) hlen
  refine ⟨0, ?_, ?_, nofun, fun _ => rfl, hsz⟩
  · simp only [header, hp, List.cons_append]
    rw [hr]
    simpa using hr'
  · simp only [header, hp, List.length_cons, hlen, consume_byteval, consume_consume, Nat.add_comm]

/-- The innermost list is read to its end: `Kind` reports `EOL` there. -/
def AtEnd (s : Stream) : Prop := ∃ tos rest, s.stack = tos :: rest ∧ tos.pos = tos.size

/-- A stream with its type information cached and no error: `Kind` returns it and changes nothing. -/
theorem Kind_cached {s : Stream} {k : Rlp.Kind} (hk : s.kind = some k) (he : s.kinderr = none) :
    exec Kind s = (.ok (k, s.size), s) := by
  unfold Kind
  simp [exec_bind, hk, he]

theorem Kind_eol {s : Stream} (hk : s.kind = none) (he : s.AtEnd) :
    exec Kind s = (.error .eol, { s with kinderr := none }) := by
  obtain ⟨tos, rest, hst, hpos⟩ := he
  unfold Kind
  simp [exec_bind, hk, hst, hpos]

/-- `Kind` with nothing cached, away from the end of the innermost list: the type information `readKind` reads,
checked against the room left, cached. -/
theorem Kind_of_readKind {s s₁ : Stream} {k : Rlp.Kind} {n : Nat} (hk : s.kind = none) (he : ¬ s.AtEnd)
    (hr : exec readKind { s with kinderr := none } = (.ok (k, n, none), s₁)) (hs : sizeError s₁ n = none) :
    exec Kind s = (.ok (k, n), { s₁ with kind := some k, size := n, kinderr := none }) := by
  have hne : ∀ tos rest, s.stack = tos :: rest → ¬ tos.pos = tos.size := fun tos rest hst hpos => he ⟨tos, rest, hst, hpos⟩
  unfold Kind
  cases hst : s.stack with
  | nil =>
    rw [hk, hst] at hr
    simp [exec_bind, exec_map, hk, hst, hr, hs]
  | cons tos rest =>
    rw [hk, hst] at hr
    simp [exec_bind, exec_map, hk, hst, if_neg (hne tos rest hst), hr, hs]

/-- What a `Kind` that returned implies of a stream with nothing cached. -/
theorem Kind_inv {s s' : Stream} {k : Rlp.Kind} {n : Nat} (hk : s.kind = none)
    (h : exec Kind s = (.ok (k, n), s')) :
    ¬ s.AtEnd ∧ ∃ s₁, exec readKind { s with kinderr := none } = (.ok (k, n, none), s₁) ∧ sizeError s₁ n = none ∧
      s' = { s₁ with kind := some k, size := n, kinderr := none } := by
  have hend : ¬ s.AtEnd := by
    rintro ⟨tos, rest, hst, hpos⟩
    rw [Kind_eol hk ⟨tos, rest, hst, hpos⟩] at h
    cases h
  refine ⟨hend, ?_⟩
  have hne : ∀ tos rest, s.stack = tos :: rest → ¬ tos.pos = tos.size :=
    fun tos rest hst hpos => hend ⟨tos, rest, hst, hpos⟩
  unfold Kind at h
  rcases hr : exec readKind { s with kinderr := none } with ⟨_ | ⟨k', n', err⟩, s₁⟩
  all_goals
    rw [hk] at hr
    rcases hst : s.stack with _ | ⟨tos, rest⟩ <;> rw [hst] at hr <;> simp [exec_bind, hk, hst, hne, hr] at h
  all_goals
    cases err <;> cases hse : s₁.sizeError n' <;> simp [hse, exec_map] at h
    obtain ⟨⟨rfl, rfl⟩, rfl⟩ := h
    exact ⟨s₁, rfl, hse, rfl⟩

/-- The size check of `Kind` passes for a value that fits after its header. -/
theorem sizeError_consume {s : Stream} {a n : Nat} (bv : UInt8) (hf : s.Fits (a + n)) :
    sizeError { s.consume a with byteval := bv } n = none := by
  obtain ⟨hr, hs⟩ := hf
  unfold sizeError
  cases hst : s.stack with
  | nil =>
    have : ¬ n > s.remaining - a := by omega
    simp [hst, this]
  | cons tos rest =>
    have := hs tos (by simp [hst])
    have : ¬ n > tos.size - (tos.pos + a) := by omega
    simp [hst, this]

theorem length_lengthPrefix_pos (short long : UInt8) (n : Nat) : 0 < (lengthPrefix short long n).length := by
  unfold lengthPrefix
  split <;> simp

theorem not_atEnd_of_fits {s : Stream} {n : Nat} (hn : 0 < n) (hf : s.Fits n) : ¬ s.AtEnd := by
  rintro ⟨tos, rest, hst, hpos⟩
  have := hf.2 tos (by simp [hst])
  omega

/-- The stream after `Kind` read a header: the bytes of the header consumed, the type information cached. -/
def peek (s : Stream) (k : Rlp.Kind) (n : Nat) (bv : UInt8) : Stream :=
  { s.consume (header k n bv).length with byteval := bv, kind := some k, size := n, kinderr := none }

@[simp] theorem peek_r (s : Stream) (k : Rlp.Kind) (n : Nat) (bv : UInt8) :
    (s.peek k n bv).r = s.r.drop (header k n bv).length := rfl
@[simp] theorem peek_kind (s : Stream) (k : Rlp.Kind) (n : Nat) (bv : UInt8) : (s.peek k n bv).kind = some k := rfl
@[simp] theorem peek_size (s : Stream) (k : Rlp.Kind) (n : Nat) (bv : UInt8) : (s.peek k n bv).size = n := rfl
@[simp] theorem peek_byteval (s : Stream) (k : Rlp.Kind) (n : Nat) (bv : UInt8) : (s.peek k n bv).byteval = bv :=
  rfl
@[simp] theorem peek_kinderr (s : Stream) (k : Rlp.Kind) (n : Nat) (bv : UInt8) :
    (s.peek k n bv).kinderr = none := rfl
@[simp] theorem peek_limited (s : Stream) (k : Rlp.Kind) (n : Nat) (bv : UInt8) :
    (s.peek k n bv).limited = s.limited := rfl
@[simp] theorem peek_remaining (s : Stream) (k : Rlp.Kind) (n : Nat) (bv : UInt8) :
    (s.peek k n bv).remaining = s.remaining - (header k n bv).length := rfl
@[simp] theorem peek_stack (s : Stream) (k : Rlp.Kind) (n : Nat) (bv : UInt8) :
    (s.peek k n bv).stack = advanceTop s.stack (header k n bv).length := rfl

theorem Kind_byte_ok {s : Stream} {b : UInt8} {rest : List UInt8} (hk : s.kind = none) (hl : s.limited = true)
    (hb : b < 0x80) (hf : s.Fits 1) (hr : s.r = b :: rest) : exec Kind s = (.ok (.byte, 0), s.peek .byte 0 b) :=
  Kind_of_readKind hk (not_atEnd_of_fits Nat.one_pos hf) (readKind_byte_ok (s := { s with kinderr := none }) hl hb hf hr)
    (sizeError_consume (a := 1) b hf)

theorem Kind_string_ok {s : Stream} {n : Nat} {rest : List UInt8} (hk : s.kind = none) (hl : s.limited = true)
    (hn : n < 2 ^ 64) (hf : s.Fits ((lengthPrefix 0x80 0xB7 n).length + n)) (hr : s.r = lengthPrefix 0x80 0xB7 n ++ rest) :
    exec Kind s = (.ok (.string, n), s.peek .string n 0) :=
  Kind_of_readKind hk (not_atEnd_of_fits (by have := length_lengthPrefix_pos 0x80 0xB7 n; omega) hf)
    (readKind_string_ok (s := { s with kinderr := none }) hl hn (hf.mono (by omega)) hr) (sizeError_consume 0 hf)

theorem Kind_list_ok {s : Stream} {n : Nat} {rest : List UInt8} (hk : s.kind = none) (hl : s.limited = true)
    (hn : n < 2 ^ 64) (hf : s.Fits ((lengthPrefix 0xC0 0xF7 n).length + n)) (hr : s.r = lengthPrefix 0xC0 0xF7 n ++ rest) :
    exec Kind s = (.ok (.list, n), s.peek .list n 0) :=
  Kind_of_readKind hk (not_atEnd_of_fits (by have := length_lengthPrefix_pos 0xC0 0xF7 n; omega) hf)
    (readKind_list_ok (s := { s with kinderr := none }) hl hn (hf.mono (by omega)) hr) (sizeError_consume 0 hf)

/-- What a `Kind` that returned implies of a stream with nothing cached: the input started with the value's byte or
canonical header, which is now read. -/
theorem Kind_header_inv {s s' : Stream} {k : Rlp.Kind} {n : Nat} (hk : s.kind = none) (hl : s.limited = true)
    (h : exec Kind s = (.ok (k, n), s')) :
    ∃ bv, s.r = header k n bv ++ s'.r ∧ s' = s.peek k n bv ∧ (k = .byte → n = 0 ∧ bv < 0x80) ∧
      (k ≠ .byte → bv = 0) ∧ n < 2 ^ 64 := by
  obtain ⟨-, s₁, hr, -, rfl⟩ := Kind_inv hk h
  obtain ⟨bv, hr', rfl, hb, hb', hn⟩ := readKind_inv (s := { s with kinderr := none }) hl hr
  exact ⟨bv, hr', rfl, hb, hb', hn⟩

end Stream

end Etherzero.Rlp
