import Mathlib
import Etherzero.Lib.StateExcept
import Etherzero.Rlp.Stream
import Etherzero.Rlp.Decode
import Etherzero.Rlp.Item
import Etherzero.Lemmas.RlpValue
import Etherzero.Lemmas.RlpStream
import Etherzero.Lemmas.RlpRead
import Etherzero.Lemmas.RlpDecoder

/-!
# The list decoders: slices, arrays and interfaces

`decodeListSlice` and `decodeListArray` enter a list and run an element decoder in it; the element decoder is a
parameter here, and the lemmas assume of it only what `Decodes`, `DecodedFrom` and `StartsWithKind` say. A slice
loop stops when the element decoder reports `EOL`, which it does exactly at the end of the list (`EolFirst`,
`EolAtEnd`); an array loop stops after the array's length. `decodeInterface` is a slice decoder of itself, one
level of fuel down.
-/

namespace Etherzero.Rlp

open Etherzero.Rlp.Stream

/-- The innermost open list ends after `n` more bytes. -/
def EndsAfter (s : Stream) (n : Nat) : Prop := ∃ tos rest, s.stack = tos :: rest ∧ tos.pos + n = tos.size

theorem EndsAfter.read {s s' : Stream} {a b : Nat} (he : EndsAfter s (a + b)) (h : Read s s' a) :
    EndsAfter s' b := by
  obtain ⟨tos, rest, hst, hpos⟩ := he
  exact ⟨_, rest, by rw [h.stack, hst]; rfl, by simp only; omega⟩

theorem EndsAfter.atEnd {s : Stream} (he : EndsAfter s 0) : s.AtEnd := by
  obtain ⟨tos, rest, hst, hpos⟩ := he
  exact ⟨tos, rest, hst, by omega⟩

theorem endsAfter_enter (s : Stream) (m : Nat) : EndsAfter (s.enter m) m := ⟨_, _, rfl, by simp⟩

namespace Stream

theorem Read.zero {s : Stream} (hk : s.kind = none) : Read s s 0 := ⟨by simp, by simp, rfl, hk, by simp⟩

/-- Reporting `EOL` clears the cached error, which `Read` does not look at. -/
theorem Read.clear_kinderr {s s' : Stream} {n : Nat} (h : Read s s' n) : Read s { s' with kinderr := none } n :=
  ⟨h.r, h.remaining, h.limited, h.kind, h.stack⟩

end Stream

/-! ## The slice loop -/

/-- One turn of the slice loop that returned: the element decoder reported `EOL`, or it returned an element and the
rest of the loop returned the others. -/
theorem decodeSliceElems_succ_inv {elemdec : StreamM Val} {fuel i : Nat} {s s' : Stream} {vs : List Val}
    (h : exec (decodeSliceElems elemdec (fuel + 1) i) s = (.ok vs, s')) :
    (vs = [] ∧ exec elemdec s = (.error .eol, s')) ∨
      ∃ v vs' s₁, vs = v :: vs' ∧ exec elemdec s = (.ok v, s₁) ∧
        exec (decodeSliceElems elemdec fuel (i + 1)) s₁ = (.ok vs', s') := by
  rw [decodeSliceElems, exec_bind, exec_observing] at h
  rcases hx : exec elemdec s with ⟨e | v, s₁⟩ <;> rw [hx] at h <;> simp only at h
  · left
    split at h
    · simp only [exec_pure, Prod.mk.injEq, Except.ok.injEq] at h
      obtain ⟨rfl, rfl⟩ := h
      exact ⟨rfl, by simp_all⟩
    · simp at h
    · simp_all
  · right
    obtain ⟨vs', s₂, hrest, h⟩ := exec_bind_eq_ok h
    simp only [exec_pure, Prod.mk.injEq, Except.ok.injEq] at h
    obtain ⟨rfl, rfl⟩ := h
    exact ⟨v, vs', s₁, rfl, rfl, hrest⟩

/-- The slice loop never reports `EOL`: it turns the element decoder's into the end of the loop. -/
theorem neverEol_decodeSliceElems (elemdec : StreamM Val) : ∀ fuel i, NeverEol (decodeSliceElems elemdec fuel i)
  | 0, _ => NeverEol.throw nofun
  | fuel + 1, i => by
    intro s s' h
    rw [decodeSliceElems, exec_bind, exec_observing] at h
    rcases hx : exec elemdec s with ⟨e | v, s₁⟩ <;> rw [hx] at h <;> simp only at h
    · split at h
      · simp at h
      · rename_i err hne _
        simp only [exec_throw, Prod.mk.injEq, Except.error.injEq, addErrorContext_eq_eol] at h
        exact hne h.1
      · simp_all
    · exact (neverEol_decodeSliceElems elemdec fuel (i + 1)).bind (fun vs => NeverEol.pure (v :: vs)) s₁ s' h

/-- The slice loop on the encodings of `xs`, up to the end of the list: one element of each. -/
theorem decodeSliceElems_decodes {β : Type} {elemdec : StreamM Val} (enc : β → List UInt8) (dec : β → Val)
    (hend : EolFirst elemdec) :
    ∀ (xs : List β) (fuel i : Nat), xs.length < fuel → (∀ x ∈ xs, Decodes elemdec (enc x) (dec x)) →
      ∀ s rest, s.kind = none → s.limited = true → s.Fits (xs.flatMap enc).length →
        s.r = xs.flatMap enc ++ rest → EndsAfter s (xs.flatMap enc).length →
        ∃ s', exec (decodeSliceElems elemdec fuel i) s = (.ok (xs.map dec), s') ∧ Read s s' (xs.flatMap enc).length
  | [], fuel + 1, i, _, _, s, _, hk, _, _, _, he => by
    refine ⟨_, ?_, (Read.zero hk).clear_kinderr⟩
    rw [decodeSliceElems, exec_bind, exec_observing, hend s hk he.atEnd]
    rfl
  | x :: xs, fuel + 1, i, hlen, hx, s, rest, hk, hl, hf, hr, he => by
    simp only [List.flatMap_cons, List.length_append] at hf he ⊢
    rw [List.flatMap_cons, List.append_assoc] at hr
    obtain ⟨s₁, h₁, hread₁⟩ := (hx x List.mem_cons_self) s _ hk hl (hf.mono (by omega)) hr
    obtain ⟨s₂, h₂, hread₂⟩ := decodeSliceElems_decodes enc dec hend xs fuel (i + 1) (by simpa using hlen)
      (fun y hy => hx y (List.mem_cons_of_mem x hy)) s₁ rest hread₁.kind (by rw [hread₁.limited, hl])
      (hread₁.fits hf) (by rw [hread₁.r, hr, List.drop_left]) (he.read hread₁)
    refine ⟨s₂, ?_, hread₁.trans hread₂⟩
    rw [decodeSliceElems, exec_bind, exec_observing, h₁]
    simp only
    rw [exec_bind_ok h₂]
    rfl
  | _, 0, _, hlen, _, _, _, _, _, _, _, _ => absurd hlen (Nat.not_lt_zero _)

/-- What a slice loop that returned read: the encodings of items, one for each element, related to it by `P`,
when the element decoder reads so every element the guard `G` admits. -/
theorem decodeSliceElems_inv {elemdec : StreamM Val} {G : Val → Prop} {P : Val → Item → Prop}
    (hend : EolAtEnd elemdec)
    (hd : ∀ s s' v, s.kind = none → s.limited = true → exec elemdec s = (.ok v, s') → G v →
      ∃ i, s.r = i.encode ++ s'.r ∧ Read s s' i.encode.length ∧ P v i) :
    ∀ (fuel i : Nat) (s s' : Stream) (vs : List Val), s.kind = none → s.limited = true →
      exec (decodeSliceElems elemdec fuel i) s = (.ok vs, s') → (∀ v ∈ vs, G v) →
      ∃ is, s.r = Item.encodeList is ++ s'.r ∧ Read s s' (Item.encodeList is).length ∧ List.Forall₂ P vs is
  | 0, _, _, _, _, _, _, h, _ => by simp [decodeSliceElems] at h
  | fuel + 1, i, s, s', vs, hk, hl, h, hG => by
    rcases decodeSliceElems_succ_inv h with ⟨rfl, he⟩ | ⟨v, vs', s₁, rfl, h₁, h₂⟩
    · obtain ⟨-, rfl⟩ := hend s s' hk he
      exact ⟨[], by simp, (Read.zero hk).clear_kinderr, .nil⟩
    · obtain ⟨it, hr₁, hread₁, hP⟩ := hd s s₁ v hk hl h₁ (hG v List.mem_cons_self)
      obtain ⟨is, hr₂, hread₂, hF⟩ := decodeSliceElems_inv hend hd fuel (i + 1) s₁ s' vs' hread₁.kind
        (by rw [hread₁.limited, hl]) h₂ (fun w hw => hG w (List.mem_cons_of_mem v hw))
      refine ⟨it :: is, by rw [Item.encodeList_cons, hr₁, hr₂, List.append_assoc], ?_, .cons hP hF⟩
      simpa using hread₁.trans hread₂

/-! ## Slices -/

theorem startsWithKind_decodeListSlice (elemdec : StreamM Val) (fuel : Nat) :
    StartsWithKind (decodeListSlice elemdec fuel) := by
  unfold decodeListSlice
  refine startsWithKind_list.wrapped.bind fun size => ?_
  split
  · exact NeverEol.listEnd.bind fun _ => NeverEol.pure _
  · exact (neverEol_decodeSliceElems elemdec fuel 0).bind fun vs => NeverEol.listEnd.bind fun _ => NeverEol.pure vs

/-- Elements with non-empty encodings, all empty together: there are none. -/
theorem eq_nil_of_flatMap_length {β : Type} {enc : β → List UInt8} {xs : List β} (hne : ∀ x ∈ xs, enc x ≠ [])
    (h0 : (xs.flatMap enc).length = 0) : xs = [] := by
  cases xs with
  | nil => rfl
  | cons x xs =>
    have := hne x List.mem_cons_self
    simp_all

/-- A slice reads the list of the encodings of its elements. -/
theorem decodeListSlice_decodes {β : Type} {elemdec : StreamM Val} {fuel : Nat} (enc : β → List UInt8)
    (dec : β → Val) (hend : EolFirst elemdec) (xs : List β) (hfuel : xs.length < fuel)
    (hne : ∀ x ∈ xs, enc x ≠ []) (hx : ∀ x ∈ xs, Decodes elemdec (enc x) (dec x))
    (hn : (xs.flatMap enc).length < 2 ^ 64) :
    Decodes (decodeListSlice elemdec fuel) (lengthPrefix 0xC0 0xF7 (xs.flatMap enc).length ++ xs.flatMap enc)
      (xs.map dec) := by
  intro s rest hk hl hf hr
  rw [List.length_append] at hf ⊢
  rw [List.append_assoc] at hr
  have hlist := list_ok hk hl hn hf hr
  unfold decodeListSlice
  rw [exec_bind_ok (exec_wrapped_ok.mpr hlist)]
  by_cases h0 : (xs.flatMap enc).length = 0
  · obtain rfl := eq_nil_of_flatMap_length hne h0
    obtain ⟨s₃, he, hread⟩ := listEnd_enter_ok (Read.zero (s := s.enter 0) rfl)
    refine ⟨s₃, ?_, by simpa using hread⟩
    simp only [List.flatMap_nil, List.length_nil, if_true]
    rw [exec_bind_ok he]
    rfl
  · obtain ⟨s₂, hloop, hread₂⟩ := decodeSliceElems_decodes enc dec hend xs fuel 0 hfuel hx (s.enter _) rest rfl
      (by rw [enter_limited, hl]) (enter_fits hf) (by simp [hr]) (endsAfter_enter s _)
    obtain ⟨s₃, he, hread⟩ := listEnd_enter_ok hread₂
    refine ⟨s₃, ?_, hread⟩
    rw [if_neg h0, exec_bind_ok hloop, exec_bind_ok he]
    rfl

/-- What a slice decoder that returned read: a list of items, one for each element. -/
theorem decodeListSlice_inv {elemdec : StreamM Val} {fuel : Nat} {G : Val → Prop} {P : Val → Item → Prop}
    (hend : EolAtEnd elemdec)
    (hd : ∀ s s' v, s.kind = none → s.limited = true → exec elemdec s = (.ok v, s') → G v →
      ∃ i, s.r = i.encode ++ s'.r ∧ Read s s' i.encode.length ∧ P v i)
    {s s' : Stream} {vs : List Val} (hk : s.kind = none) (hl : s.limited = true)
    (h : exec (decodeListSlice elemdec fuel) s = (.ok vs, s')) (hG : ∀ v ∈ vs, G v) :
    ∃ is, s.r = (Item.list is).encode ++ s'.r ∧ Read s s' (Item.list is).encode.length ∧ List.Forall₂ P vs is := by
  unfold decodeListSlice at h
  obtain ⟨m, s₁, hlist, h⟩ := exec_bind_eq_ok h
  obtain ⟨hr, rfl⟩ := list_inv hk hl (exec_wrapped_ok.mp hlist)
  split at h
  · rename_i hm
    subst hm
    obtain ⟨_, s₃, he, hp⟩ := exec_bind_eq_ok h
    simp only [exec_pure, Prod.mk.injEq, Except.ok.injEq] at hp
    obtain ⟨rfl, rfl⟩ := hp
    obtain ⟨-, hread⟩ := listEnd_enter_inv (Read.zero (s := s.enter 0) rfl) he
    have hr₃ : s₃.r = (s.enter 0).r := by rw [hread.r, enter_r, Nat.add_zero]
    exact ⟨[], by simpa [Item.encode, hr₃] using hr, by simpa [Item.encode] using hread, .nil⟩
  · obtain ⟨vs', s₂, hloop, h⟩ := exec_bind_eq_ok h
    obtain ⟨_, s₃, he, hp⟩ := exec_bind_eq_ok h
    simp only [exec_pure, Prod.mk.injEq, Except.ok.injEq] at hp
    obtain ⟨rfl, rfl⟩ := hp
    obtain ⟨is, hr₂, hread₂, hF⟩ := decodeSliceElems_inv hend hd fuel 0 (s.enter m) s₂ vs' rfl
      (by rw [enter_limited, hl]) hloop hG
    obtain ⟨hm, hread⟩ := listEnd_enter_inv hread₂ he
    have hr₃ : s₃.r = s₂.r := by rw [hread.r, hread₂.r, enter_r, List.drop_drop, hm, Nat.add_comm]
    refine ⟨is, ?_, ?_, hF⟩
    · rw [Item.encode, hm, List.append_assoc, hr₃, ← hr₂]
      exact hr
    · rw [Item.encode, List.length_append, hm]
      exact hread

/-! ## Arrays -/

/-- One turn of the array loop that returned, as `decodeSliceElems_succ_inv`. -/
theorem decodeArrayElems_succ_inv {elemdec : StreamM Val} {vlen i : Nat} {s s' : Stream} {vs : List Val}
    (h : exec (decodeArrayElems elemdec (vlen + 1) i) s = (.ok vs, s')) :
    (vs = [] ∧ exec elemdec s = (.error .eol, s')) ∨
      ∃ v vs' s₁, vs = v :: vs' ∧ exec elemdec s = (.ok v, s₁) ∧
        exec (decodeArrayElems elemdec vlen (i + 1)) s₁ = (.ok vs', s') := by
  rw [decodeArrayElems, exec_bind, exec_observing] at h
  rcases hx : exec elemdec s with ⟨e | v, s₁⟩ <;> rw [hx] at h <;> simp only at h
  · left
    split at h
    · simp only [exec_pure, Prod.mk.injEq, Except.ok.injEq] at h
      obtain ⟨rfl, rfl⟩ := h
      exact ⟨rfl, by simp_all⟩
    · simp at h
    · simp_all
  · right
    obtain ⟨vs', s₂, hrest, h⟩ := exec_bind_eq_ok h
    simp only [exec_pure, Prod.mk.injEq, Except.ok.injEq] at h
    obtain ⟨rfl, rfl⟩ := h
    exact ⟨v, vs', s₁, rfl, rfl, hrest⟩

theorem neverEol_decodeArrayElems (elemdec : StreamM Val) : ∀ vlen i, NeverEol (decodeArrayElems elemdec vlen i)
  | 0, _ => NeverEol.pure []
  | vlen + 1, i => by
    intro s s' h
    rw [decodeArrayElems, exec_bind, exec_observing] at h
    rcases hx : exec elemdec s with ⟨e | v, s₁⟩ <;> rw [hx] at h <;> simp only at h
    · split at h
      · simp at h
      · rename_i err hne _
        simp only [exec_throw, Prod.mk.injEq, Except.error.injEq, addErrorContext_eq_eol] at h
        exact hne h.1
      · simp_all
    · exact (neverEol_decodeArrayElems elemdec vlen (i + 1)).bind (fun vs => NeverEol.pure (v :: vs)) s₁ s' h

/-- The array loop on the encodings of as many elements as the array has: one element of each. -/
theorem decodeArrayElems_decodes {β : Type} {elemdec : StreamM Val} (enc : β → List UInt8) (dec : β → Val) :
    ∀ (xs : List β) (i : Nat), (∀ x ∈ xs, Decodes elemdec (enc x) (dec x)) →
      Decodes (decodeArrayElems elemdec xs.length i) (xs.flatMap enc) (xs.map dec)
  | [], _, _ => fun s _ hk _ _ _ => ⟨s, rfl, Read.zero hk⟩
  | x :: xs, i, hx => by
    intro s rest hk hl hf hr
    simp only [List.flatMap_cons, List.length_append] at hf ⊢
    rw [List.flatMap_cons, List.append_assoc] at hr
    obtain ⟨s₁, h₁, hread₁⟩ := (hx x List.mem_cons_self) s _ hk hl (hf.mono (by omega)) hr
    obtain ⟨s₂, h₂, hread₂⟩ := decodeArrayElems_decodes enc dec xs (i + 1)
      (fun y hy => hx y (List.mem_cons_of_mem x hy)) s₁ rest hread₁.kind (by rw [hread₁.limited, hl])
      (hread₁.fits hf) (by rw [hread₁.r, hr, List.drop_left])
    refine ⟨s₂, ?_, hread₁.trans hread₂⟩
    rw [List.length_cons, decodeArrayElems, exec_bind, exec_observing, h₁]
    simp only
    rw [exec_bind_ok h₂]
    rfl

/-- What an array loop that returned read, as `decodeSliceElems_inv`; it returns at most the array's length. -/
theorem decodeArrayElems_inv {elemdec : StreamM Val} {G : Val → Prop} {P : Val → Item → Prop}
    (hend : EolAtEnd elemdec)
    (hd : ∀ s s' v, s.kind = none → s.limited = true → exec elemdec s = (.ok v, s') → G v →
      ∃ i, s.r = i.encode ++ s'.r ∧ Read s s' i.encode.length ∧ P v i) :
    ∀ (vlen i : Nat) (s s' : Stream) (vs : List Val), s.kind = none → s.limited = true →
      exec (decodeArrayElems elemdec vlen i) s = (.ok vs, s') → (∀ v ∈ vs, G v) →
      ∃ is, s.r = Item.encodeList is ++ s'.r ∧ Read s s' (Item.encodeList is).length ∧ List.Forall₂ P vs is ∧
        vs.length ≤ vlen
  | 0, _, s, s', vs, hk, _, h, _ => by
    simp only [decodeArrayElems, exec_pure, Prod.mk.injEq, Except.ok.injEq] at h
    obtain ⟨rfl, rfl⟩ := h
    exact ⟨[], by simp, Read.zero hk, .nil, le_refl 0⟩
  | vlen + 1, i, s, s', vs, hk, hl, h, hG => by
    rcases decodeArrayElems_succ_inv h with ⟨rfl, he⟩ | ⟨v, vs', s₁, rfl, h₁, h₂⟩
    · obtain ⟨-, rfl⟩ := hend s s' hk he
      exact ⟨[], by simp, (Read.zero hk).clear_kinderr, .nil, Nat.zero_le _⟩
    · obtain ⟨it, hr₁, hread₁, hP⟩ := hd s s₁ v hk hl h₁ (hG v List.mem_cons_self)
      obtain ⟨is, hr₂, hread₂, hF, hlen⟩ := decodeArrayElems_inv hend hd vlen (i + 1) s₁ s' vs' hread₁.kind
        (by rw [hread₁.limited, hl]) h₂ (fun w hw => hG w (List.mem_cons_of_mem v hw))
      refine ⟨it :: is, by rw [Item.encodeList_cons, hr₁, hr₂, List.append_assoc], ?_, .cons hP hF,
        by simpa using hlen⟩
      simpa using hread₁.trans hread₂

theorem startsWithKind_decodeListArray (vlen : Nat) (elemdec : StreamM Val) :
    StartsWithKind (decodeListArray vlen elemdec) := by
  unfold decodeListArray
  refine startsWithKind_list.wrapped.bind fun _ => ?_
  refine (neverEol_decodeArrayElems elemdec vlen 0).bind fun vs s s' h => ?_
  dsimp only at h
  split at h
  · simp at h
  · exact (NeverEol.listEnd.wrapped.bind fun _ => NeverEol.pure _) s s' h

/-- An array reads the list of the encodings of its elements. -/
theorem decodeListArray_decodes {β : Type} {elemdec : StreamM Val} (enc : β → List UInt8) (dec : β → Val)
    (xs : List β) (hx : ∀ x ∈ xs, Decodes elemdec (enc x) (dec x)) (hn : (xs.flatMap enc).length < 2 ^ 64) :
    Decodes (decodeListArray xs.length elemdec) (lengthPrefix 0xC0 0xF7 (xs.flatMap enc).length ++ xs.flatMap enc)
      (.list (xs.map dec)) := by
  intro s rest hk hl hf hr
  rw [List.length_append] at hf ⊢
  rw [List.append_assoc] at hr
  have hlist := list_ok hk hl hn hf hr
  obtain ⟨s₂, hloop, hread₂⟩ := decodeArrayElems_decodes enc dec xs 0 hx (s.enter _) rest rfl
    (by rw [enter_limited, hl]) (enter_fits hf) (by simp [hr])
  obtain ⟨s₃, he, hread⟩ := listEnd_enter_ok hread₂
  refine ⟨s₃, ?_, hread⟩
  unfold decodeListArray
  rw [exec_bind_ok (exec_wrapped_ok.mpr hlist), exec_bind_ok hloop]
  simp only [List.length_map, lt_self_iff_false, if_false]
  rw [exec_bind_ok (exec_wrapped_ok.mpr he)]
  rfl

/-- What an array decoder that returned read: a list of exactly the array's length of items. -/
theorem decodeListArray_inv {elemdec : StreamM Val} {vlen : Nat} {G : Val → Prop} {P : Val → Item → Prop}
    (hend : EolAtEnd elemdec)
    (hd : ∀ s s' v, s.kind = none → s.limited = true → exec elemdec s = (.ok v, s') → G v →
      ∃ i, s.r = i.encode ++ s'.r ∧ Read s s' i.encode.length ∧ P v i)
    {s s' : Stream} {x : Val} (hk : s.kind = none) (hl : s.limited = true)
    (h : exec (decodeListArray vlen elemdec) s = (.ok x, s')) (hG : ∀ vs, x = .list vs → ∀ v ∈ vs, G v) :
    ∃ vs is, x = .list vs ∧ vs.length = vlen ∧ s.r = (Item.list is).encode ++ s'.r ∧
      Read s s' (Item.list is).encode.length ∧ List.Forall₂ P vs is := by
  unfold decodeListArray at h
  obtain ⟨m, s₁, hlist, h⟩ := exec_bind_eq_ok h
  obtain ⟨hr, rfl⟩ := list_inv hk hl (exec_wrapped_ok.mp hlist)
  obtain ⟨vs, s₂, hloop, h⟩ := exec_bind_eq_ok h
  dsimp only at h
  split at h
  · simp at h
  rename_i hlen
  obtain ⟨_, s₃, he, hp⟩ := exec_bind_eq_ok h
  simp only [exec_pure, Prod.mk.injEq, Except.ok.injEq] at hp
  obtain ⟨rfl, rfl⟩ := hp
  obtain ⟨is, hr₂, hread₂, hF, hle⟩ := decodeArrayElems_inv hend hd vlen 0 (s.enter m) s₂ vs rfl
    (by rw [enter_limited, hl]) hloop (hG vs rfl)
  obtain ⟨hm, hread⟩ := listEnd_enter_inv hread₂ (exec_wrapped_ok.mp he)
  have hr₃ : s₃.r = s₂.r := by rw [hread.r, hread₂.r, enter_r, List.drop_drop, hm, Nat.add_comm]
  refine ⟨vs, is, rfl, by omega, ?_, ?_, hF⟩
  · rw [Item.encode, hm, List.append_assoc, hr₃, ← hr₂]
    exact hr
  · rw [Item.encode, List.length_append, hm]
    exact hread

/-! ## Interfaces -/

/-- A decoder that begins with `Kind` cannot report `EOL` right after a `Kind` that returned. -/
theorem StartsWithKind.after_kind {α : Type} {x : StreamM α} (hx : StartsWithKind x) {s s₁ : Stream}
    {kn : Rlp.Kind × Nat} (hk : s.kind = none) (h : exec Stream.Kind s = (.ok kn, s₁)) (s' : Stream) :
    exec x s₁ ≠ (.error .eol, s') := by
  rw [hx.kindFirst s s₁ kn h]
  intro he
  obtain ⟨hend, -⟩ := hx.eolAtEnd s s' hk he
  rw [Kind_eol hk hend] at h
  cases h

theorem startsWithKind_decodeInterface (fuel : Nat) : StartsWithKind (decodeInterface (fuel + 1)) := by
  rw [decodeInterface]
  refine StartsWithKind.kind_bind fun ⟨k, n⟩ s s₁ s' h hk => ?_
  dsimp only
  split
  · exact ((startsWithKind_decodeListSlice _ fuel).bind fun _ => NeverEol.pure _).after_kind hk h s'
  · exact (startsWithKind_bytes.bind fun _ => NeverEol.pure _).after_kind hk h s'

theorem eolAtEnd_decodeInterface : ∀ fuel, EolAtEnd (decodeInterface fuel)
  | 0 => fun _ _ _ h => by simp [decodeInterface] at h
  | fuel + 1 => (startsWithKind_decodeInterface fuel).eolAtEnd

/-- `Bytes` that returned read a `Kind` other than a list first. -/
theorem bytes_kind {s s' : Stream} {bs : List UInt8} (h : exec bytes s = (.ok bs, s')) :
    ∃ k n s₁, exec Stream.Kind s = (.ok (k, n), s₁) ∧ k ≠ .list := by
  unfold bytes at h
  obtain ⟨⟨k, n⟩, s₁, hkind, h⟩ := exec_bind_eq_ok h
  refine ⟨k, n, s₁, hkind, ?_⟩
  rintro rfl
  simp at h

/-- `List` that returned read the `Kind` of a list first. -/
theorem list_kind {s s' : Stream} {m : Nat} (h : exec list s = (.ok m, s')) :
    ∃ s₁, exec Stream.Kind s = (.ok (.list, m), s₁) := by
  unfold list at h
  obtain ⟨⟨k, n⟩, s₁, hkind, h⟩ := exec_bind_eq_ok h
  by_cases hk : k = .list
  · subst hk
    simp only [ne_eq, not_true_eq_false, if_false, exec_bind, exec_modify, exec_pure, Prod.mk.injEq,
      Except.ok.injEq] at h
    exact ⟨s₁, by rw [hkind, h.1]⟩
  · simp [exec_bind, hk] at h

theorem length_le_length_flatMap {β : Type} (enc : β → List UInt8) {xs : List β} {x : β} (hx : x ∈ xs) :
    (enc x).length ≤ (xs.flatMap enc).length := by
  induction xs with
  | nil => simp at hx
  | cons y ys ih =>
    rw [List.flatMap_cons, List.length_append]
    rcases List.mem_cons.mp hx with rfl | hx
    · omega
    · have := ih hx
      omega

theorem length_le_length_flatMap_of_ne_nil {β : Type} {enc : β → List UInt8} {xs : List β}
    (hne : ∀ x ∈ xs, enc x ≠ []) : xs.length ≤ (xs.flatMap enc).length := by
  induction xs with
  | nil => simp
  | cons y ys ih =>
    rw [List.flatMap_cons, List.length_append, List.length_cons]
    have h1 : 0 < (enc y).length := List.length_pos_iff.mpr (hne y List.mem_cons_self)
    have h2 := ih fun x hx => hne x (List.mem_cons_of_mem y hx)
    omega

theorem Item.encodeList_map {β : Type} (g : β → Item) (xs : List β) :
    Item.encodeList (xs.map g) = xs.flatMap fun x => (g x).encode := by
  induction xs with
  | nil => simp
  | cons x xs ih => simp [ih]

theorem length_le_length_encode_str (bs : List UInt8) : bs.length ≤ (Item.str bs).encode.length := by
  rw [encode_str_eq]
  split <;> simp

/-- A slice decoder that returned read the `Kind` of a list first. -/
theorem decodeListSlice_kind {elemdec : StreamM Val} {fuel : Nat} {s s' : Stream} {vs : List Val}
    (h : exec (decodeListSlice elemdec fuel) s = (.ok vs, s')) :
    ∃ m s₁, exec Stream.Kind s = (.ok (.list, m), s₁) := by
  unfold decodeListSlice at h
  obtain ⟨m, s₁, hlist, -⟩ := exec_bind_eq_ok h
  obtain ⟨s₂, hkind⟩ := list_kind (exec_wrapped_ok.mp hlist)
  exact ⟨m, s₂, hkind⟩

/-- `[]byte` in an interface reads a string. -/
theorem decodeInterface_bytes_decodes (fuel : Nat) {bs : List UInt8} (hn : (Item.str bs).encode.length < 2 ^ 64) :
    Decodes (decodeInterface (fuel + 1)) (Item.str bs).encode (.ifaceBytes bs) := by
  intro s rest hk hl hf hr
  obtain ⟨s', hb, hread⟩ := decodes_bytes (by have := length_le_length_encode_str bs; omega) s rest hk hl hf hr
  obtain ⟨k, n, s₁, hkind, hkl⟩ := bytes_kind hb
  refine ⟨s', ?_, hread⟩
  rw [decodeInterface, exec_bind_ok hkind]
  simp only [hkl, if_false]
  rw [exec_bind, startsWithKind_bytes.kindFirst s s₁ _ hkind, hb]
  rfl

/-- `[]interface{}` in an interface reads a list of the elements' items. -/
theorem decodeInterface_list_decodes (fuel : Nat) (vs : List Val)
    (hx : ∀ v ∈ vs, Decodes (decodeInterface (fuel + 1)) v.ifaceItem.encode v.ifaceDecoded)
    (hfuel : vs.length < fuel + 1) (hn : (Item.list (vs.map Val.ifaceItem)).encode.length < 2 ^ 64) :
    Decodes (decodeInterface (fuel + 2)) (Item.list (vs.map Val.ifaceItem)).encode
      (.ifaceList (vs.map Val.ifaceDecoded)) := by
  have hne : ∀ v ∈ vs, v.ifaceItem.encode ≠ [] := fun v _ => List.ne_nil_of_length_pos v.ifaceItem.length_encode_pos
  have hn' : (vs.flatMap fun v => v.ifaceItem.encode).length < 2 ^ 64 := by
    rw [Item.encode, Item.encodeList_map, List.length_append] at hn
    omega
  have hls := decodeListSlice_decodes (fun v => v.ifaceItem.encode) Val.ifaceDecoded
    (startsWithKind_decodeInterface fuel).eolFirst vs hfuel hne hx hn'
  rw [Item.encode, Item.encodeList_map]
  intro s rest hk hl hf hr
  obtain ⟨s', hdec, hread⟩ := hls s rest hk hl hf hr
  obtain ⟨m, s₁, hkind⟩ := decodeListSlice_kind hdec
  refine ⟨s', ?_, hread⟩
  rw [decodeInterface, exec_bind_ok hkind]
  simp only [if_true]
  rw [exec_bind, (startsWithKind_decodeListSlice _ _).kindFirst s s₁ _ hkind, hdec]
  rfl

/-- An interface reads the item it was written as: `[]byte` from a string, `[]interface{}` (and a nil interface)
from a list. -/
theorem decodeInterface_decodes : ∀ (fuel : Nat) (v : Val), v.isIface = true →
    v.ifaceItem.encode.length < fuel → v.ifaceItem.encode.length < 2 ^ 64 →
    Decodes (decodeInterface fuel) v.ifaceItem.encode v.ifaceDecoded
  | 0, _, _, hlt, _ => absurd hlt (Nat.not_lt_zero _)
  | 1, v, _, hlt, _ => absurd hlt (by have := v.ifaceItem.length_encode_pos; omega)
  | fuel + 2, .ifaceBytes bs, _, _, hn => decodeInterface_bytes_decodes (fuel + 1) hn
  | fuel + 2, .ifaceNil, _, _, hn =>
    decodeInterface_list_decodes fuel [] nofun (Nat.succ_pos fuel) hn
  | fuel + 2, .ifaceList vs, hv, hlt, hn => by
    rw [Val.ifaceItem, Val.ifaceItems_eq_map] at hlt hn ⊢
    rw [Val.ifaceDecoded, Val.ifaceDecodedList_eq_map]
    rw [Val.isIface, Val.isIfaceList_eq_all, List.all_eq_true] at hv
    -- each element's encoding is shorter than the list's, which bounds the fuel and the number of elements
    have hsum : (vs.flatMap fun v => v.ifaceItem.encode).length < fuel + 1 := by
      rw [Item.encode, Item.encodeList_map, List.length_append] at hlt
      have := length_lengthPrefix_pos 0xC0 0xF7 (vs.flatMap fun v => v.ifaceItem.encode).length
      omega
    have hflat : (vs.flatMap fun v => v.ifaceItem.encode).length < 2 ^ 64 := by
      rw [Item.encode, Item.encodeList_map, List.length_append] at hn
      omega
    have hlen : ∀ v ∈ vs, v.ifaceItem.encode.length < fuel + 1 := fun v hv' =>
      lt_of_le_of_lt (length_le_length_flatMap (fun v => v.ifaceItem.encode) hv') hsum
    have hcount : vs.length < fuel + 1 := lt_of_le_of_lt
      (length_le_length_flatMap_of_ne_nil fun v _ => List.ne_nil_of_length_pos v.ifaceItem.length_encode_pos) hsum
    exact decodeInterface_list_decodes fuel vs
      (fun v hv' => decodeInterface_decodes (fuel + 1) v (hv v hv') (hlen v hv')
        (lt_of_le_of_lt (length_le_length_flatMap (fun v => v.ifaceItem.encode) hv') hflat))
      hcount hn
  | _ + 2, .uint _, h, _, _ | _ + 2, .bool _, h, _, _ | _ + 2, .bytes _, h, _, _ | _ + 2, .bigInt _, h, _, _
  | _ + 2, .list _, h, _, _ | _ + 2, .ptr _, h, _, _ => by simp [Val.isIface] at h

/-- Elements related to items by a function are mapped to them. -/
theorem map_eq_of_forall₂ {β γ : Type} {f : β → γ} {xs : List β} {ys : List γ}
    (h : List.Forall₂ (fun a b => f a = b) xs ys) : xs.map f = ys := by
  have h' := (List.forall₂_map_left_iff (R := Eq)).mpr h
  rwa [List.forall₂_eq_eq_eq] at h'

/-- What an interface decoder that returned read: the item its value is written as. -/
theorem decodeInterface_inv : ∀ (fuel : Nat) (s s' : Stream) (x : Val), s.kind = none → s.limited = true →
    exec (decodeInterface fuel) s = (.ok x, s') →
    s.r = x.ifaceItem.encode ++ s'.r ∧ Read s s' x.ifaceItem.encode.length ∧ x.isIface = true
  | 0, _, _, _, _, _, h => by simp [decodeInterface] at h
  | fuel + 1, s, s', x, hk, hl, h => by
    rw [decodeInterface] at h
    obtain ⟨⟨k, n⟩, s₁, hkind, h⟩ := exec_bind_eq_ok h
    dsimp only at h
    split at h
    · rw [(startsWithKind_decodeListSlice _ fuel).kindFirst.bind s s₁ _ hkind] at h
      obtain ⟨vs, s₂, hls, hp⟩ := exec_bind_eq_ok h
      simp only [exec_pure, Prod.mk.injEq, Except.ok.injEq] at hp
      obtain ⟨rfl, rfl⟩ := hp
      obtain ⟨is, hr, hread, hF⟩ := decodeListSlice_inv (G := fun _ => True)
        (P := fun v i => v.isIface = true ∧ v.ifaceItem = i) (eolAtEnd_decodeInterface fuel)
        (fun s s' v hk hl h _ => ⟨v.ifaceItem, (decodeInterface_inv fuel s s' v hk hl h).1,
          (decodeInterface_inv fuel s s' v hk hl h).2.1, (decodeInterface_inv fuel s s' v hk hl h).2.2, rfl⟩)
        hk hl hls (fun _ _ => trivial)
      obtain ⟨hiface, hitems⟩ := (List.forall₂_and_left _ _).mp hF
      have hmap := map_eq_of_forall₂ hitems
      rw [Val.ifaceItem, Val.ifaceItems_eq_map, hmap, Val.isIface, Val.isIfaceList_eq_all, List.all_eq_true]
      exact ⟨hr, hread, hiface⟩
    · rw [startsWithKind_bytes.kindFirst.bind s s₁ _ hkind] at h
      obtain ⟨bs, s₂, hb, hp⟩ := exec_bind_eq_ok h
      simp only [exec_pure, Prod.mk.injEq, Except.ok.injEq] at hp
      obtain ⟨rfl, rfl⟩ := hp
      exact ⟨(bytes_inv hk hl hb).1, (bytes_inv hk hl hb).2, rfl⟩

end Etherzero.Rlp
