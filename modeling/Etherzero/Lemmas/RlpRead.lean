import Mathlib
import Etherzero.Lib.BigEndian
import Etherzero.Lib.StateExcept
import Etherzero.Rlp.Stream
import Etherzero.Rlp.Item
import Etherzero.Lemmas.RlpValue
import Etherzero.Lemmas.RlpStream

/-!
# The stream's value readers: `Bytes`, `uint`, `Bool`, `List` and `ListEnd`

Each reader, started with nothing cached, returns exactly on the canonical encoding of what it returns: the `_ok`
lemmas read a canonical encoding, the `_inv` lemmas find one in front of every returned value. Both leave the
stream as `Read` says, moved on by the length of the encoding.
-/

namespace Etherzero.Rlp

namespace Stream

theorem peek_fits {s : Stream} {k : Rlp.Kind} {n m : Nat} {bv : UInt8} (hf : s.Fits ((header k n bv).length + m)) :
    (s.peek k n bv).Fits m :=
  ⟨(Fits.consume hf).1, (Fits.consume hf).2⟩

/-- Reading `m` bytes after a header is reading header and bytes. -/
theorem Read.peek_consume (s : Stream) (k : Rlp.Kind) (n m : Nat) (bv : UInt8) :
    Read s ((s.peek k n bv).consume m) ((header k n bv).length + m) :=
  ⟨by simp [List.drop_drop, Nat.add_comm], by simp [Nat.sub_sub], rfl, rfl, by simp [advanceTop_add]⟩

theorem Read.peek_rearm (s : Stream) (k : Rlp.Kind) (n : Nat) (bv : UInt8) :
    Read s { s.peek k n bv with kind := none } (header k n bv).length :=
  ⟨rfl, rfl, rfl, rfl, rfl⟩

theorem exec_rearm (s : Stream) : exec rearm s = (.ok (), { s with kind := none }) := rfl

/-- The encoding of a string is the header `Kind` reads for it and, unless it is a single byte, its content. -/
theorem encode_str_eq (bs : List UInt8) :
    (Item.str bs).encode = if isSingleByte bs then bs else header .string bs.length 0 ++ bs := by
  simp only [Item.encode, header]

theorem bytes_ok {s : Stream} {bs rest : List UInt8} (hk : s.kind = none) (hl : s.limited = true)
    (hn : bs.length < 2 ^ 64) (hf : s.Fits (Item.str bs).encode.length) (hr : s.r = (Item.str bs).encode ++ rest) :
    ∃ s', exec bytes s = (.ok bs, s') ∧ Read s s' (Item.str bs).encode.length := by
  rw [encode_str_eq] at hf hr ⊢
  split at hf
  · rename_i hs
    rw [if_pos hs] at hr ⊢
    obtain ⟨b, hb, rfl⟩ : ∃ b, b < 0x80 ∧ bs = [b] := by
      unfold isSingleByte at hs
      split at hs
      · exact ⟨_, by simpa using hs, rfl⟩
      · cases hs
    refine ⟨_, ?_, Read.peek_rearm s .byte 0 b⟩
    unfold bytes
    rw [exec_bind_ok (Kind_byte_ok hk hl hb hf hr)]
    rfl
  · rename_i hs
    rw [if_neg hs] at hr ⊢
    have hf' : s.Fits ((lengthPrefix 0x80 0xB7 bs.length).length + bs.length) := by simpa [header] using hf
    have hkind := Kind_string_ok hk hl hn hf' (by simpa [header] using hr)
    have hfull := readFull_ok (s := s.peek .string bs.length 0) hl (peek_fits (m := bs.length) (by simpa using hf))
      (by simp [hr, header])
    have htake : (s.peek .string bs.length 0).r.take bs.length = bs := by simp [hr, header]
    rw [htake] at hfull
    refine ⟨_, ?_, by simpa using Read.peek_consume s .string bs.length bs.length 0⟩
    unfold bytes
    rw [exec_bind_ok hkind]
    simp only
    rw [exec_bind_ok hfull]
    have hcanon : ¬ (bs.length = 1 ∧ bs.head?.all (· < 128) = true) := by
      rintro ⟨h1, h2⟩
      obtain ⟨b, rfl⟩ := List.length_eq_one_iff.mp h1
      exact hs (by simpa [isSingleByte] using h2)
    simp [hcanon]

theorem bytes_inv {s s' : Stream} {bs : List UInt8} (hk : s.kind = none) (hl : s.limited = true)
    (h : exec bytes s = (.ok bs, s')) :
    s.r = (Item.str bs).encode ++ s'.r ∧ Read s s' (Item.str bs).encode.length := by
  unfold bytes at h
  obtain ⟨⟨k, n⟩, s₁, hkind, h⟩ := exec_bind_eq_ok h
  obtain ⟨bv, hr, rfl, hb, -⟩ := Kind_header_inv hk hl hkind
  cases k with
  | byte =>
    obtain ⟨rfl, hbv⟩ := hb rfl
    simp only [exec_bind, exec_rearm, exec_get, exec_pure, peek_byteval, Prod.mk.injEq, Except.ok.injEq] at h
    obtain ⟨rfl, rfl⟩ := h
    have hs : isSingleByte [bv] = true := by simpa [isSingleByte] using hbv
    rw [encode_str_eq, if_pos hs]
    exact ⟨by simpa [header] using hr, Read.peek_rearm s .byte 0 bv⟩
  | string =>
    obtain ⟨bs', s₂, hfull, h⟩ := exec_bind_eq_ok h
    obtain ⟨-, hlen, rfl, rfl⟩ := readFull_inv (s := s.peek .string n bv) hl hfull
    split at h
    · simp at h
    · rename_i hcanon
      simp only [exec_pure, Prod.mk.injEq, Except.ok.injEq] at h
      obtain ⟨rfl, rfl⟩ := h
      have hlen' : ((s.peek .string n bv).r.take n).length = n := by simpa using hlen
      have hs : isSingleByte ((s.peek .string n bv).r.take n) = false := by
        unfold isSingleByte
        split
        · rename_i b hb
          rw [hb] at hlen' hcanon
          simp only [List.length_singleton] at hlen'
          subst hlen'
          simpa using hcanon
        · rfl
      have hh : header .string n bv = header .string n 0 := rfl
      simp only [encode_str_eq, hs, Bool.false_eq_true, if_false, List.length_append, hlen', ← hh]
      refine ⟨?_, Read.peek_consume s .string n n bv⟩
      rw [hr, List.append_assoc, consume_r, List.take_append_drop]
  | list => simp at h

/-- A positive number below 128 is one byte. -/
theorem beBytes_of_lt_128 {n : Nat} (h0 : 0 < n) (h : n < 128) : beBytes n = [UInt8.ofNat n] := by
  simp [beBytes, Nat.digits_of_lt 256 n (by omega) (by omega)]

theorem uint_ok {s : Stream} {n maxbits : Nat} {rest : List UInt8} (hk : s.kind = none) (hl : s.limited = true)
    (hn : (beBytes n).length ≤ maxbits / 8) (hmax : maxbits ≤ 64) (hf : s.Fits (Item.str (beBytes n)).encode.length)
    (hr : s.r = (Item.str (beBytes n)).encode ++ rest) :
    ∃ s', exec (uint maxbits) s = (.ok n, s') ∧ Read s s' (Item.str (beBytes n)).encode.length := by
  have hL : (beBytes n).length < 2 ^ 64 := by omega
  rcases Nat.eq_zero_or_pos n with rfl | hpos
  · have he : (Item.str (beBytes 0)).encode = lengthPrefix 0x80 0xB7 0 ++ [] := by decide
    rw [he] at hf hr ⊢
    have hkind := Kind_string_ok (n := 0) hk hl (by decide) (by simpa using hf) hr
    refine ⟨_, ?_, by simpa [header] using Read.peek_rearm s .string 0 0⟩
    unfold uint
    rw [exec_bind_ok hkind]
    simp [exec_bind, exec_observing, exec_map, readUint, exec_rearm]
  rcases Nat.lt_or_ge n 128 with hlt | hge
  · have hd := beBytes_of_lt_128 hpos hlt
    have hb : UInt8.ofNat n < 0x80 := by
      rw [UInt8.lt_iff_toNat_lt, toNat_ofNat_small (by omega)]
      simpa using hlt
    have hs : isSingleByte (beBytes n) = true := by rw [isSingleByte_beBytes]; simp [hpos, hlt]
    rw [Item.encode, if_pos hs, hd] at hf hr ⊢
    have hkind := Kind_byte_ok hk hl hb hf hr
    refine ⟨_, ?_, Read.peek_rearm s .byte 0 (UInt8.ofNat n)⟩
    have hne : ¬ UInt8.ofNat n = 0 := by
      intro h0
      have := congrArg UInt8.toNat h0
      rw [toNat_ofNat_small (by omega)] at this
      simp at this
      omega
    unfold uint
    rw [exec_bind_ok hkind]
    simp [exec_bind, exec_map, hne, exec_rearm, toNat_ofNat_small (show n < 256 by omega)]
  · have hs : isSingleByte (beBytes n) = false := by rw [isSingleByte_beBytes]; simp; omega
    rw [encode_str_eq, if_neg (by simp [hs])] at hf hr ⊢
    have hf' : s.Fits ((lengthPrefix 0x80 0xB7 (beBytes n).length).length + (beBytes n).length) := by
      simpa [header] using hf
    have hkind := Kind_string_ok hk hl hL hf' (by simpa [header, List.append_assoc] using hr)
    have hr' : (s.peek .string (beBytes n).length 0).r = beBytes n ++ rest := by simp [hr]
    have hu := readUint_ok (s := s.peek .string (beBytes n).length 0) hl hpos
      (peek_fits (m := (beBytes n).length) (by simpa using hf)) hr'
    refine ⟨_, ?_, by simpa using Read.peek_consume s .string (beBytes n).length (beBytes n).length 0⟩
    unfold uint
    rw [exec_bind_ok hkind]
    simp only [gt_iff_lt, Nat.not_lt.mpr hn, if_false]
    rw [exec_bind_ok (by rw [exec_observing, hu])]
    simp [Nat.not_lt.mpr hge]

/-- What an `uint` that returned implies: the input held the canonical encoding of the number, in at most
`maxbits / 8` bytes. -/
theorem uint_inv {s s' : Stream} {maxbits v : Nat} (hk : s.kind = none) (hl : s.limited = true) (h8 : 8 ≤ maxbits)
    (h : exec (uint maxbits) s = (.ok v, s')) :
    s.r = (Item.str (beBytes v)).encode ++ s'.r ∧ Read s s' (Item.str (beBytes v)).encode.length ∧
      (beBytes v).length ≤ maxbits / 8 := by
  unfold uint at h
  obtain ⟨⟨k, n⟩, s₁, hkind, h⟩ := exec_bind_eq_ok h
  obtain ⟨bv, hr, rfl, hb, -⟩ := Kind_header_inv hk hl hkind
  cases k with
  | byte =>
    obtain ⟨rfl, hbv⟩ := hb rfl
    by_cases h0 : bv = 0
    · simp [exec_bind, h0] at h
    simp only [exec_bind, exec_get, peek_byteval, h0, if_false, exec_rearm, exec_pure, Prod.mk.injEq,
      Except.ok.injEq] at h
    obtain ⟨rfl, rfl⟩ := h
    have hlt : bv.toNat < 128 := by simpa [UInt8.lt_iff_toNat_lt] using hbv
    have hpos : 0 < bv.toNat := by
      rcases Nat.eq_zero_or_pos bv.toNat with h' | h'
      · exact absurd (UInt8.toNat_inj.mp (by simpa using h')) h0
      · exact h'
    have hd : beBytes bv.toNat = [bv] := by rw [beBytes_of_lt_128 hpos hlt, UInt8.ofNat_toNat]
    have hs : isSingleByte [bv] = true := by simpa [isSingleByte] using hbv
    rw [hd, encode_str_eq, if_pos hs]
    exact ⟨by simpa using hr, Read.peek_rearm s .byte 0 bv, by simp; omega⟩
  | string =>
    dsimp only at h
    by_cases hbig : n > maxbits / 8
    · simp [hbig] at h
    rw [if_neg hbig] at h
    obtain ⟨r, s₂, hu, h⟩ := exec_bind_eq_ok h
    rw [exec_observing] at hu
    rcases hru : exec (readUint n) (s.peek .string n bv) with ⟨_ | w, s₃⟩
    · rw [hru] at hu
      simp only [Prod.mk.injEq, Except.ok.injEq] at hu
      obtain ⟨rfl, rfl⟩ := hu
      split at h
      · simp at h
      · simp at h
      · rename_i heq
        cases heq
    rw [hru] at hu
    simp only [Prod.mk.injEq, Except.ok.injEq] at hu
    obtain ⟨rfl, rfl⟩ := hu
    rcases Nat.eq_zero_or_pos n with rfl | hn
    · simp only [readUint, exec_bind, exec_rearm, exec_pure, Prod.mk.injEq, Except.ok.injEq] at hru
      obtain ⟨rfl, rfl⟩ := hru
      simp only [lt_self_iff_false, decide_false, Bool.false_and, Bool.false_eq_true, if_false, exec_pure,
        Prod.mk.injEq, Except.ok.injEq] at h
      obtain ⟨rfl, rfl⟩ := h
      refine ⟨by simpa [Item.encode, isSingleByte] using hr, ?_, by simp⟩
      simpa [Item.encode, isSingleByte] using Read.peek_rearm s .string 0 bv
    by_cases hsmall : w < 128
    · simp [hn, hsmall] at h
    simp only [hn, decide_true, hsmall, decide_false, Bool.and_false, Bool.false_eq_true, if_false, exec_pure,
      Prod.mk.injEq, Except.ok.injEq] at h
    obtain ⟨rfl, rfl⟩ := h
    obtain ⟨bs, hr', hlen, rfl, hz, rfl⟩ := readUint_inv (s := s.peek .string n bv) hl hn hru
    have hz' : bs.head? ≠ some 0 := by
      rcases (show n = 1 ∨ 2 ≤ n by omega) with rfl | h2
      · obtain ⟨c, rfl⟩ := List.length_eq_one_iff.mp hlen
        intro hc
        simp only [List.head?_cons, Option.some.injEq] at hc
        subst hc
        simp [beValue_singleton] at hsmall
      · exact hz h2
    have hd := beBytes_beValue hz'
    have hs : isSingleByte bs = false := by rw [← hd, isSingleByte_beBytes]; simp; omega
    rw [hd, encode_str_eq, if_neg (by simp [hs]), hlen]
    refine ⟨?_, by simpa [hlen] using Read.peek_consume s .string n n bv, by omega⟩
    rw [hr, hr']
    simp
  | list => simp at h

theorem beBytes_bool (b : Bool) : beBytes (if b then 1 else 0) = if b then [1] else [] := by
  cases b <;> simp [beBytes]

theorem bool_ok {s : Stream} {b : Bool} {rest : List UInt8} (hk : s.kind = none) (hl : s.limited = true)
    (hf : s.Fits (Item.str (if b then [1] else [])).encode.length)
    (hr : s.r = (Item.str (if b then [1] else [])).encode ++ rest) :
    ∃ s', exec bool s = (.ok b, s') ∧ Read s s' (Item.str (if b then [1] else [])).encode.length := by
  rw [← beBytes_bool] at hf hr ⊢
  have hlen : (beBytes (if b then 1 else 0)).length ≤ 8 / 8 := by cases b <;> simp [beBytes]
  obtain ⟨s', hu, hread⟩ := uint_ok hk hl hlen (by decide) hf hr
  refine ⟨s', ?_, hread⟩
  unfold bool
  rw [exec_bind_ok hu]
  cases b <;> rfl

theorem bool_inv {s s' : Stream} {b : Bool} (hk : s.kind = none) (hl : s.limited = true)
    (h : exec bool s = (.ok b, s')) :
    s.r = (Item.str (if b then [1] else [])).encode ++ s'.r ∧
      Read s s' (Item.str (if b then [1] else [])).encode.length := by
  unfold bool at h
  obtain ⟨v, s₁, hu, h⟩ := exec_bind_eq_ok h
  obtain ⟨hr, hread, -⟩ := uint_inv hk hl (le_refl 8) hu
  match v, h with
  | 0, h =>
    simp only [exec_pure, Prod.mk.injEq, Except.ok.injEq] at h
    obtain ⟨rfl, rfl⟩ := h
    exact ⟨by simpa using hr, by simpa using hread⟩
  | 1, h =>
    simp only [exec_pure, Prod.mk.injEq, Except.ok.injEq] at h
    obtain ⟨rfl, rfl⟩ := h
    exact ⟨by simpa [beBytes] using hr, by simpa [beBytes] using hread⟩
  | _ + 2, h => simp at h

/-- The stream inside a list whose header was read: a new innermost list of the payload's size. -/
def enter (s : Stream) (m : Nat) : Stream :=
  { s.peek .list m 0 with stack := ⟨0, m⟩ :: (s.peek .list m 0).stack, kind := none, size := 0 }

@[simp] theorem enter_r (s : Stream) (m : Nat) : (s.enter m).r = s.r.drop (lengthPrefix 0xC0 0xF7 m).length := rfl
@[simp] theorem enter_kind (s : Stream) (m : Nat) : (s.enter m).kind = none := rfl
@[simp] theorem enter_limited (s : Stream) (m : Nat) : (s.enter m).limited = s.limited := rfl
@[simp] theorem enter_remaining (s : Stream) (m : Nat) :
    (s.enter m).remaining = s.remaining - (lengthPrefix 0xC0 0xF7 m).length := rfl
@[simp] theorem enter_stack (s : Stream) (m : Nat) :
    (s.enter m).stack = ⟨0, m⟩ :: advanceTop s.stack (lengthPrefix 0xC0 0xF7 m).length := rfl

theorem list_ok {s : Stream} {m : Nat} {rest : List UInt8} (hk : s.kind = none) (hl : s.limited = true)
    (hm : m < 2 ^ 64) (hf : s.Fits ((lengthPrefix 0xC0 0xF7 m).length + m)) (hr : s.r = lengthPrefix 0xC0 0xF7 m ++ rest) :
    exec list s = (.ok m, s.enter m) := by
  unfold list
  rw [exec_bind_ok (Kind_list_ok hk hl hm hf hr)]
  rfl

theorem list_inv {s s' : Stream} {m : Nat} (hk : s.kind = none) (hl : s.limited = true)
    (h : exec list s = (.ok m, s')) : s.r = lengthPrefix 0xC0 0xF7 m ++ s'.r ∧ s' = s.enter m := by
  unfold list at h
  obtain ⟨⟨k, n⟩, s₁, hkind, h⟩ := exec_bind_eq_ok h
  obtain ⟨bv, hr, rfl, -, hb, -⟩ := Kind_header_inv hk hl hkind
  cases k with
  | list =>
    obtain rfl : bv = 0 := hb nofun
    simp only [exec_bind, ne_eq, not_true_eq_false, if_false, exec_pure, exec_modify, Prod.mk.injEq,
      Except.ok.injEq] at h
    obtain ⟨rfl, rfl⟩ := h
    exact ⟨by simpa using hr, rfl⟩
  | byte => simp [exec_bind] at h
  | string => simp [exec_bind] at h

/-- Inside a list, `m` bytes fit when the list's header and `m` bytes did. -/
theorem enter_fits {s : Stream} {m : Nat} (hf : s.Fits ((lengthPrefix 0xC0 0xF7 m).length + m)) :
    (s.enter m).Fits m :=
  ⟨by simp only [enter_remaining]; have := hf.1; omega, fun tos ht => by simp at ht; subst ht; simp⟩

theorem atEnd_of_read_enter {s s' : Stream} {m : Nat} (h : Read (s.enter m) s' m) : s'.AtEnd :=
  ⟨_, _, by rw [h.stack]; rfl, by simp⟩

theorem listEnd_eq {s : Stream} {tos : Listpos} {rest : List Listpos} (hst : s.stack = tos :: rest)
    (hpos : tos.pos = tos.size) :
    exec listEnd s = (.ok (), { s with stack := advanceTop rest tos.size, kind := none, size := 0 }) := by
  unfold listEnd
  cases rest <;> simp [exec_bind, hst, hpos]

/-- The end of a list whose `m` bytes were read: the list counts as read in the enclosing one. -/
theorem listEnd_enter_ok {s s₂ : Stream} {m : Nat} (h : Read (s.enter m) s₂ m) :
    ∃ s₃, exec listEnd s₂ = (.ok (), s₃) ∧ Read s s₃ ((lengthPrefix 0xC0 0xF7 m).length + m) := by
  have hst : s₂.stack = ⟨m, m⟩ :: advanceTop s.stack (lengthPrefix 0xC0 0xF7 m).length := by rw [h.stack]; simp
  refine ⟨_, listEnd_eq hst rfl, ?_, ?_, ?_, rfl, ?_⟩
  · simp [h.r, List.drop_drop, Nat.add_comm]
  · simp [h.remaining, Nat.sub_sub]
  · simp [h.limited]
  · simp [advanceTop_add]

/-- What a `ListEnd` that returned implies: the list's bytes were read to its size. -/
theorem listEnd_enter_inv {s s₂ s₃ : Stream} {m c : Nat} (h : Read (s.enter m) s₂ c)
    (he : exec listEnd s₂ = (.ok (), s₃)) : c = m ∧ Read s s₃ ((lengthPrefix 0xC0 0xF7 m).length + m) := by
  have hst : s₂.stack = ⟨c, m⟩ :: advanceTop s.stack (lengthPrefix 0xC0 0xF7 m).length := by rw [h.stack]; simp
  by_cases hcm : c = m
  · subst hcm
    obtain ⟨s₃', he', hr⟩ := listEnd_enter_ok h
    rw [he'] at he
    cases he
    exact ⟨rfl, hr⟩
  · unfold listEnd at he
    simp [exec_bind, hst, hcm] at he

end Stream

end Etherzero.Rlp
