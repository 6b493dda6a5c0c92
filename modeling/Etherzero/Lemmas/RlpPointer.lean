import Mathlib
import Etherzero.Lib.StateExcept
import Etherzero.Rlp.Stream
import Etherzero.Rlp.Decode
import Etherzero.Rlp.Item
import Etherzero.Lemmas.RlpValue
import Etherzero.Lemmas.RlpStream
import Etherzero.Lemmas.RlpRead
import Etherzero.Lemmas.RlpDecoder

/-!
# The pointer decoders

`makePtrDecoder` decodes what the pointer points to. `makeOptionalPtrDecoder`, for a field tagged `"nil"`, first
reads the type information of the next value: an empty string or an empty list is a nil pointer, which it passes
over, and anything else is decoded as by `makePtrDecoder`, from the stream with the type information cached. That
the element decoder then does what it does from before the `Kind` is `KindFirst`.
-/

namespace Etherzero.Rlp

open Etherzero.Rlp.Stream

variable {α β : Type}

theorem Decodes.bind_pure {x : StreamM α} {g : α → β} {enc : List UInt8} {a : α} (h : Decodes x enc a) :
    Decodes (x >>= fun a => pure (g a)) enc (g a) := by
  intro s rest hk hl hf hr
  obtain ⟨s', hx, hread⟩ := h s rest hk hl hf hr
  exact ⟨s', by rw [exec_bind_ok hx]; rfl, hread⟩

theorem Decodes.map {x : StreamM α} {g : α → β} {enc : List UInt8} {a : α} (h : Decodes x enc a) :
    Decodes (g <$> x) enc (g a) := by
  rw [← bind_pure_comp]
  exact h.bind_pure

theorem Item.isEmpty_str {bs : List UInt8} : (Item.str bs).isEmpty = true ↔ bs = [] := by
  cases bs <;> simp [Item.isEmpty]

theorem Item.encodeList_eq_nil {is : List Item} : Item.encodeList is = [] ↔ is = [] := by
  cases is with
  | nil => simp
  | cons i is =>
    have := i.length_encode_pos
    simp only [Item.encodeList_cons, List.append_eq_nil_iff, reduceCtorEq, iff_false, not_and]
    intro h
    simp [h] at this

/-- `Kind` on the encoding of an item: it reads the item's header, and finds an empty payload of a string or a
list exactly for an empty item. -/
theorem Kind_item_ok {s : Stream} {i : Item} {rest : List UInt8} (hk : s.kind = none) (hl : s.limited = true)
    (hn : i.encode.length < 2 ^ 64) (hf : s.Fits i.encode.length) (hr : s.r = i.encode ++ rest) :
    ∃ k n bv, exec Stream.Kind s = (.ok (k, n), s.peek k n bv) ∧ (n = 0 ∧ k ≠ .byte ↔ i.isEmpty = true) ∧
      i.encode.length = (header k n bv).length + (if k = .byte then 0 else n) := by
  cases i with
  | str bs =>
    rw [encode_str_eq] at hn hf hr ⊢
    split at hf
    · rename_i hs
      rw [if_pos hs] at hr ⊢
      obtain ⟨b, hb, rfl⟩ : ∃ b, b < 0x80 ∧ bs = [b] := by
        unfold isSingleByte at hs
        split at hs
        · exact ⟨_, by simpa using hs, rfl⟩
        · cases hs
      exact ⟨.byte, 0, b, Kind_byte_ok hk hl hb hf hr, by simp [Item.isEmpty], by simp⟩
    · rename_i hs
      rw [if_neg hs] at hr hn ⊢
      have hf' : s.Fits ((lengthPrefix 0x80 0xB7 bs.length).length + bs.length) := by simpa [header] using hf
      have hbs : bs.length < 2 ^ 64 := by simp at hn; omega
      refine ⟨.string, bs.length, 0, Kind_string_ok hk hl hbs hf' (by simpa [header] using hr), ?_, by simp⟩
      simp [Item.isEmpty_str]
  | list is =>
    rw [Item.encode] at hn hf hr ⊢
    rw [List.length_append] at hf hn
    refine ⟨.list, (Item.encodeList is).length, 0, Kind_list_ok hk hl (by omega) hf (by simpa using hr), ?_,
      by simp⟩
    cases is with
    | nil => simp [Item.isEmpty]
    | cons j js =>
      simp only [Item.isEmpty, List.length_eq_zero_iff, Item.encodeList_eq_nil, reduceCtorEq]
      simp

/-- A pointer reads what it points to. -/
theorem makePtrDecoder_decodes {elemdec : StreamM Val} {enc : List UInt8} {x : Val} (h : Decodes elemdec enc x) :
    Decodes (makePtrDecoder elemdec) enc (.ptr (some x)) :=
  h.bind_pure

/-- A `"nil"`-tagged pointer reads an empty string or an empty list as nil. -/
theorem makeOptionalPtrDecoder_nil {elemdec : StreamM Val} {i : Item} (hi : i.isEmpty = true)
    (hn : i.encode.length < 2 ^ 64) : Decodes (makeOptionalPtrDecoder elemdec) i.encode (.ptr none) := by
  intro s rest hk hl hf hr
  obtain ⟨k, n, bv, hkind, hempty, hlen⟩ := Kind_item_ok hk hl hn hf hr
  obtain ⟨rfl, hkb⟩ := hempty.mpr hi
  refine ⟨_, ?_, by simpa [hlen, hkb] using Read.peek_rearm s k 0 bv⟩
  unfold makeOptionalPtrDecoder
  rw [exec_bind, exec_observing, hkind]
  simp [hkb, exec_map, exec_rearm]

/-- A `"nil"`-tagged pointer reads any other item as what it points to. -/
theorem makeOptionalPtrDecoder_some {elemdec : StreamM Val} {i : Item} {x : Val} (hi : i.isEmpty = false)
    (hn : i.encode.length < 2 ^ 64) (hkf : KindFirst elemdec) (h : Decodes elemdec i.encode x) :
    Decodes (makeOptionalPtrDecoder elemdec) i.encode (.ptr (some x)) := by
  intro s rest hk hl hf hr
  obtain ⟨k, n, bv, hkind, hempty, -⟩ := Kind_item_ok hk hl hn hf hr
  have hne : ¬ (n = 0 ∧ k ≠ .byte) := fun hnk => by simp [hempty.mp hnk] at hi
  obtain ⟨s', hx, hread⟩ := h s rest hk hl hf hr
  refine ⟨s', ?_, hread⟩
  unfold makeOptionalPtrDecoder
  rw [exec_bind, exec_observing, hkind]
  have hcond : (n = 0 && k ≠ .byte) = false := by simpa using hne
  simp only [hcond, Bool.false_eq_true, if_false]
  rw [exec_bind, hkf s _ _ hkind, hx]
  rfl

theorem makePtrDecoder_inv {elemdec : StreamM Val} {s s' : Stream} {x : Val}
    (h : exec (makePtrDecoder elemdec) s = (.ok x, s')) : ∃ v, x = .ptr (some v) ∧ exec elemdec s = (.ok v, s') := by
  obtain ⟨v, s₁, hv, hp⟩ := exec_bind_eq_ok h
  simp only [exec_pure, Prod.mk.injEq, Except.ok.injEq] at hp
  obtain ⟨rfl, rfl⟩ := hp
  exact ⟨v, rfl, hv⟩

/-- An empty item is the empty list or the empty string, as it is a list or not. -/
theorem Item.eq_of_isEmpty {i : Item} (hi : i.isEmpty = true) : (if i.isList then .list [] else .str []) = i := by
  match i, hi with
  | .str [], _ => rfl
  | .list [], _ => rfl

/-- What a `"nil"`-tagged pointer decoder that returned read: an empty item for a nil pointer, or what the element
decoder returned on an item that is not empty. -/
theorem makeOptionalPtrDecoder_inv {elemdec : StreamM Val} (hkf : KindFirst elemdec) {s s' : Stream} {x : Val}
    (hk : s.kind = none) (hl : s.limited = true) (h : exec (makeOptionalPtrDecoder elemdec) s = (.ok x, s')) :
    (x = .ptr none ∧ ∃ i : Item, i.isEmpty = true ∧ s.r = i.encode ++ s'.r ∧ Read s s' i.encode.length) ∨
      ∃ v, x = .ptr (some v) ∧ exec elemdec s = (.ok v, s') ∧
        ∀ (i : Item) (Y : List UInt8), s.r = i.encode ++ Y → i.isEmpty = false := by
  unfold makeOptionalPtrDecoder at h
  rw [exec_bind, exec_observing] at h
  rcases hkind : exec Stream.Kind s with ⟨e | ⟨k, n⟩, s₁⟩ <;> rw [hkind] at h <;> simp only at h
  · simp [exec_bind, exec_rearm] at h
  obtain ⟨bv, hr, rfl, hb, hbv, hn⟩ := Kind_header_inv hk hl hkind
  by_cases hnk : n = 0 ∧ k ≠ .byte
  · left
    obtain ⟨rfl, hkb⟩ := hnk
    simp only [hkb, ne_eq, not_false_eq_true, decide_true, Bool.and_self, if_true, exec_bind, exec_rearm,
      exec_pure, Prod.mk.injEq, Except.ok.injEq] at h
    obtain ⟨rfl, rfl⟩ := h
    refine ⟨rfl, if k = .list then .list [] else .str [], by split <;> rfl, ?_⟩
    have hh : (if k = .list then Item.list [] else .str []).encode = header k 0 bv := by
      cases k <;> simp_all [Item.encode, isSingleByte, lengthPrefix]
    rw [hh]
    exact ⟨hr, Read.peek_rearm s k 0 bv⟩
  · right
    have hcond : (n = 0 && k ≠ .byte) = false := by simpa using hnk
    simp only [hcond, Bool.false_eq_true, if_false] at h
    obtain ⟨v, s₂, hv, hp⟩ := exec_bind_eq_ok h
    simp only [exec_pure, Prod.mk.injEq, Except.ok.injEq] at hp
    obtain ⟨rfl, rfl⟩ := hp
    refine ⟨v, rfl, by rw [← hkf s _ _ hkind, hv], fun i Y hY => ?_⟩
    cases hi : i.isEmpty
    · rfl
    · exact absurd (header_empty hb hn hi (by rw [← hr, hY])) hnk

end Etherzero.Rlp
