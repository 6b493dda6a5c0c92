import Mathlib
import Etherzero.Lib.BigEndian
import Etherzero.Lib.StateExcept
import Etherzero.Rlp.Stream
import Etherzero.Rlp.Decode
import Etherzero.Rlp.Item
import Etherzero.Lemmas.RlpValue
import Etherzero.Lemmas.RlpStream
import Etherzero.Lemmas.RlpRead
import Etherzero.Lemmas.RlpDecoder
import Etherzero.Lemmas.RlpLoops
import Etherzero.Lemmas.RlpPointer

/-!
# Every decoder against the items of its type

Two mutual inductions over the types and the fields of structs. The forward one: the decoder of a type reads the
encoding of the items the writer writes for a value that decodes back, and returns `Ty.decoded` of it. The backward
one: a decoder that returned read the encoding of one item, of which its result is a value of the type, written as
that item again unless the item is one of those `readsBack` excludes. Both run on one more than no fuel, as
`decodeBytes` always gives.
-/

namespace Etherzero.Rlp

open Etherzero.Rlp.Stream

/-- The field loop never reports `EOL`: a field's `EOL` is "too few elements". -/
theorem neverEol_makeStructDecoder (fuel : Nat) : ∀ fs : Fields, NeverEol (makeStructDecoder fuel fs) := by
  intro fs
  cases fs with
  | nil => exact NeverEol.pure []
  | cons name t tags fs =>
    rw [makeStructDecoder]
    split
    · exact (neverEol_makeStructDecoder fuel fs).bind fun vs => NeverEol.pure _
    · intro s s' h
      rw [exec_bind, exec_observing] at h
      rcases hx : exec (makeDecoder fuel t tags) s with ⟨e | v, s₁⟩ <;> rw [hx] at h <;> simp only at h
      · split at h
        · simp at h
        · rename_i err hne _
          simp only [exec_throw, Prod.mk.injEq, Except.error.injEq, addErrorContext_eq_eol] at h
          exact hne h.1
        · simp_all
      · exact ((neverEol_makeStructDecoder fuel fs).bind fun vs => NeverEol.pure (v :: vs)) s₁ s' h

theorem makeDecoder_ptr {e : Ty} (he : e ≠ .bigInt) (fuel : Nat) (tags : Tags) :
    makeDecoder fuel (.ptr e) tags =
      if tags.nilOK then makeOptionalPtrDecoder (makeDecoder fuel e {}) else makePtrDecoder (makeDecoder fuel e {}) := by
  cases e <;> first | exact absurd rfl he | rfl

/-- Every decoder of an element begins with `Kind`; an interface needs fuel for that. -/
theorem startsWithKind_makeDecoder (fuel : Nat) : ∀ t : Ty, StartsWithKind (makeDecoder (fuel + 1) t {})
  | .bigInt => startsWithKind_decodeBigIntNoPtr
  | .uint k => startsWithKind_decodeUint k
  | .bool => startsWithKind_decodeBool
  | .string => startsWithKind_decodeString
  | .bytes => startsWithKind_decodeString
  | .byteArray n => startsWithKind_decodeByteArray n
  | .slice e => (startsWithKind_decodeListSlice _ _).map
  | .array n e => startsWithKind_decodeListArray n _
  | .struct fs => startsWithKind_list.wrapped.bind fun _ =>
      (neverEol_makeStructDecoder _ fs).bind fun _ => NeverEol.listEnd.wrapped.bind fun _ => NeverEol.pure _
  | .iface => startsWithKind_decodeInterface fuel
  | .ptr e => by
    by_cases he : e = .bigInt
    · subst he
      exact startsWithKind_decodeBigInt
    rw [makeDecoder_ptr he]
    exact (startsWithKind_makeDecoder fuel e).bind fun _ => NeverEol.pure _

/-! ## What the types say of pointers -/

section Pointers

variable {e : Ty} (he : e ≠ .bigInt) (tags : Tags)
include he

theorem Ty.decoded_ptr_none :
    (Ty.ptr e).decoded tags (.ptr none) = if tags.nilOK then .ptr none else .ptr (some (e.decoded {} e.zero)) := by
  cases e <;> first | exact absurd rfl he | rfl

theorem Ty.decoded_ptr_some (v : Val) :
    (Ty.ptr e).decoded tags (.ptr (some v)) =
      if tags.nilOK && (e.items {} v).all Item.isEmpty then .ptr none else .ptr (some (e.decoded {} v)) := by
  cases e <;> first | exact absurd rfl he | rfl

theorem Ty.decodesBack_ptr_none : (Ty.ptr e).decodesBack tags (.ptr none) = (tags.nilOK || e.nilDecodes) := by
  cases e <;> first | exact absurd rfl he | rfl

theorem Ty.decodesBack_ptr_some (v : Val) : (Ty.ptr e).decodesBack tags (.ptr (some v)) = e.decodesBack {} v := by
  cases e <;> first | exact absurd rfl he | rfl

end Pointers

theorem orElse_eq_none {β : Type} {x : Option β} {f : Unit → Option β} (h : x.orElse f = none) :
    x = none ∧ f () = none := by
  cases x with
  | none => exact ⟨rfl, h⟩
  | some _ => cases h

/-- The type errors of a struct's field list, field by field: a `"tail"` is the last field and a slice. -/
theorem Fields.typeError_cons_eq_none {name : String} {t : Ty} {tags : Tags} {fs : Fields}
    (h : (Fields.cons name t tags fs).typeError = none) :
    (tags.tail = true → fs.isNil = true ∧ t.isSlice = true) ∧ fs.typeError = none ∧
      (tags.ignored = false → t.typeError = none) := by
  unfold Fields.typeError at h
  have h₁ : (tags.tail && !fs.isNil) = false := by
    cases hc : (tags.tail && !fs.isNil)
    · rfl
    · rw [if_pos hc] at h
      cases h
  rw [if_neg (by simp [h₁])] at h
  have h₂ : (tags.tail && !t.isSlice) = false := by
    cases hc : (tags.tail && !t.isSlice)
    · rfl
    · rw [if_pos hc] at h
      cases h
  rw [if_neg (by simp [h₂])] at h
  refine ⟨fun ht => ⟨by simpa [ht] using h₁, by simpa [ht] using h₂⟩, ?_⟩
  cases hi : tags.ignored
  · rw [if_neg (by simp [hi])] at h
    exact ⟨(orElse_eq_none h).2, fun _ => (orElse_eq_none h).1⟩
  · rw [if_pos hi] at h
    exact ⟨h, nofun⟩

/-! ## Forward: the decoders read what the writers write -/

variable {α : Type}

/-- `Decodes` inside a list that ends `m` bytes after the encoding: what the field loop of a struct needs, whose last
field may be a `"tail"` slice that reads to the end of the list. -/
def DecodesWithin (d : StreamM α) (enc : List UInt8) (x : α) (m : Nat) : Prop :=
  ∀ s rest, s.kind = none → s.limited = true → s.Fits enc.length → s.r = enc ++ rest →
    EndsAfter s (enc.length + m) → ∃ s', exec d s = (.ok x, s') ∧ Read s s' enc.length

theorem Decodes.within {d : StreamM α} {enc : List UInt8} {x : α} (h : Decodes d enc x) (m : Nat) :
    DecodesWithin d enc x m :=
  fun s rest hk hl hf hr _ => h s rest hk hl hf hr

/-- A field not tagged `"-"`, then the rest of the fields. -/
theorem makeStructDecoder_cons_within {fuel : Nat} {name : String} {t : Ty} {tags : Tags} {fs : Fields}
    (hi : tags.ignored = false) {enc₁ enc₂ : List UInt8} {v : Val} {vs : List Val}
    (h₁ : DecodesWithin (makeDecoder fuel t tags) enc₁ v enc₂.length)
    (h₂ : DecodesWithin (makeStructDecoder fuel fs) enc₂ vs 0) :
    DecodesWithin (makeStructDecoder fuel (.cons name t tags fs)) (enc₁ ++ enc₂) (v :: vs) 0 := by
  intro s rest hk hl hf hr he
  rw [List.length_append] at hf he ⊢
  rw [List.append_assoc] at hr
  obtain ⟨s₁, hx, hread₁⟩ := h₁ s _ hk hl (hf.mono (by omega)) hr (by simpa using he)
  obtain ⟨s₂, hrest, hread₂⟩ := h₂ s₁ rest hread₁.kind (by rw [hread₁.limited, hl]) (hread₁.fits hf)
    (by rw [hread₁.r, hr, List.drop_left]) (he.read (a := enc₁.length) (b := enc₂.length) hread₁)
  refine ⟨s₂, ?_, hread₁.trans hread₂⟩
  rw [makeStructDecoder, if_neg (by simp [hi]), exec_bind, exec_observing, hx]
  simp only
  rw [exec_bind_ok hrest]
  rfl

/-- A field tagged `"-"` is left zero and reads nothing. -/
theorem makeStructDecoder_ignored_within {fuel : Nat} {name : String} {t : Ty} {tags : Tags} {fs : Fields}
    (hi : tags.ignored = true) {enc : List UInt8} {vs : List Val} (h : DecodesWithin (makeStructDecoder fuel fs) enc vs 0) :
    DecodesWithin (makeStructDecoder fuel (.cons name t tags fs)) enc (t.zero :: vs) 0 := by
  intro s rest hk hl hf hr he
  obtain ⟨s', hrest, hread⟩ := h s rest hk hl hf hr he
  refine ⟨s', ?_, hread⟩
  rw [makeStructDecoder, if_pos hi, exec_bind_ok hrest]
  rfl

/-- A struct reads the list of its fields' encodings. -/
theorem decodes_struct {fuel : Nat} {fs : Fields} {tags : Tags} {enc : List UInt8} {vs : List Val}
    (h : DecodesWithin (makeStructDecoder fuel fs) enc vs 0) (h64 : enc.length < 2 ^ 64) :
    Decodes (makeDecoder fuel (.struct fs) tags) (lengthPrefix 0xC0 0xF7 enc.length ++ enc) (.list vs) := by
  intro s rest hk hl hf hr
  rw [List.length_append] at hf ⊢
  rw [List.append_assoc] at hr
  have hlist := list_ok hk hl h64 hf hr
  obtain ⟨s₂, hfields, hread₂⟩ := h (s.enter _) rest rfl (by rw [enter_limited, hl]) (enter_fits hf)
    (by simp [hr]) (by simpa using endsAfter_enter s enc.length)
  obtain ⟨s₃, hend, hread⟩ := listEnd_enter_ok hread₂
  refine ⟨s₃, ?_, hread⟩
  show exec (wrapped Stream.list >>= fun _ => makeStructDecoder fuel fs >>= fun vs =>
    wrapped Stream.listEnd >>= fun _ => pure (Val.list vs)) s = _
  rw [exec_bind_ok (exec_wrapped_ok.mpr hlist), exec_bind_ok hfields, exec_bind_ok (exec_wrapped_ok.mpr hend)]
  rfl

theorem makeDecoder_slice (fuel : Nat) (e : Ty) (tags : Tags) :
    makeDecoder fuel (.slice e) tags =
      if tags.tail then .list <$> decodeSliceElems (makeDecoder fuel e {}) fuel 0
      else .list <$> decodeListSlice (makeDecoder fuel e {}) fuel := rfl

/-- The elements of a slice or an array that decode back: each is one item, each decodes by the induction
hypothesis, and there are fewer of them than fuel. -/
theorem elements_decode {fuel : Nat} {e : Ty} {vs : List Val} (hd : ∀ v ∈ vs, e.decodesBack {} v = true)
    (hlen : (Item.encodeList (vs.flatMap (e.items {}))).length < fuel + 1)
    (h64 : (Item.encodeList (vs.flatMap (e.items {}))).length < 2 ^ 64)
    (ih : ∀ v ∈ vs, (Item.encodeList (e.items {} v)).length < fuel + 1 →
      (Item.encodeList (e.items {} v)).length < 2 ^ 64 →
      Decodes (makeDecoder (fuel + 1) e {}) (Item.encodeList (e.items {} v)) (e.decoded {} v)) :
    (∀ v ∈ vs, Item.encodeList (e.items {} v) ≠ []) ∧
      (∀ v ∈ vs, Decodes (makeDecoder (fuel + 1) e {}) (Item.encodeList (e.items {} v)) (e.decoded {} v)) ∧
      vs.length < fuel + 1 := by
  rw [Item.encodeList_flatMap] at hlen h64
  have hne : ∀ v ∈ vs, Item.encodeList (e.items {} v) ≠ [] := fun v hv => by
    obtain ⟨i, hi⟩ := Ty.items_singleton e {} v (hd v hv) nofun
    rw [hi, Item.encodeList_singleton]
    exact List.ne_nil_of_length_pos i.length_encode_pos
  refine ⟨hne, fun v hv => ih v hv ?_ ?_, lt_of_le_of_lt (length_le_length_flatMap_of_ne_nil hne) hlen⟩
  · exact lt_of_le_of_lt (length_le_length_flatMap (fun v => Item.encodeList (e.items {} v)) hv) hlen
  · exact lt_of_le_of_lt (length_le_length_flatMap (fun v => Item.encodeList (e.items {} v)) hv) h64

/-- A slice reads the list of its elements' items. -/
theorem decodes_slice {fuel : Nat} {e : Ty} {tags : Tags} (htail : tags.tail = false) {vs : List Val}
    (hne : ∀ v ∈ vs, Item.encodeList (e.items {} v) ≠ [])
    (hx : ∀ v ∈ vs, Decodes (makeDecoder (fuel + 1) e {}) (Item.encodeList (e.items {} v)) (e.decoded {} v))
    (hlen : vs.length < fuel + 1) (h64 : (Item.encodeList (vs.flatMap (e.items {}))).length < 2 ^ 64) :
    Decodes (makeDecoder (fuel + 1) (.slice e) tags) (Item.list (vs.flatMap (e.items {}))).encode
      (.list (vs.map (e.decoded {}))) := by
  rw [Item.encodeList_flatMap] at h64
  rw [makeDecoder_slice, htail, Item.encode, Item.encodeList_flatMap]
  exact (decodeListSlice_decodes (fun v => Item.encodeList (e.items {} v)) (e.decoded {})
    (startsWithKind_makeDecoder fuel e).eolFirst vs hlen hne hx h64).map

/-- A `"tail"` slice reads the items of its elements up to the end of the list. -/
theorem tail_within {fuel : Nat} {e : Ty} {tags : Tags} (htail : tags.tail = true) {vs : List Val}
    (hx : ∀ v ∈ vs, Decodes (makeDecoder (fuel + 1) e {}) (Item.encodeList (e.items {} v)) (e.decoded {} v))
    (hlen : vs.length < fuel + 1) :
    DecodesWithin (makeDecoder (fuel + 1) (.slice e) tags) (Item.encodeList (vs.flatMap (e.items {})))
      (.list (vs.map (e.decoded {}))) 0 := by
  rw [makeDecoder_slice, htail, if_pos rfl, Item.encodeList_flatMap]
  intro s rest hk hl hf hr he
  obtain ⟨s', hloop, hread⟩ := decodeSliceElems_decodes (fun v => Item.encodeList (e.items {} v)) (e.decoded {})
    (startsWithKind_makeDecoder fuel e).eolFirst vs (fuel + 1) 0 hlen hx s rest hk hl hf hr he
  exact ⟨s', by rw [exec_map, hloop], hread⟩

/-- An array reads the list of its elements' items. -/
theorem decodes_array {fuel n : Nat} {e : Ty} {tags : Tags} {vs : List Val} (hn : vs.length = n)
    (hx : ∀ v ∈ vs, Decodes (makeDecoder fuel e {}) (Item.encodeList (e.items {} v)) (e.decoded {} v))
    (h64 : (Item.encodeList (vs.flatMap (e.items {}))).length < 2 ^ 64) :
    Decodes (makeDecoder fuel (.array n e) tags) (Item.list (vs.flatMap (e.items {}))).encode
      (.list (vs.map (e.decoded {}))) := by
  subst hn
  rw [Item.encodeList_flatMap] at h64
  rw [Item.encode, Item.encodeList_flatMap]
  exact decodeListArray_decodes (fun v => Item.encodeList (e.items {} v)) (e.decoded {}) vs hx h64

/-- `*big.Int` reads a string, and a nil one comes back as zero. -/
theorem decodes_ptr_bigInt {fuel : Nat} {tags : Tags} {v : Val} (hd : (Ty.ptr .bigInt).decodesBack tags v = true)
    (h64 : (Item.encodeList ((Ty.ptr .bigInt).items tags v)).length < 2 ^ 64) :
    Decodes (makeDecoder fuel (.ptr .bigInt) tags) (Item.encodeList ((Ty.ptr .bigInt).items tags v))
      ((Ty.ptr .bigInt).decoded tags v) := by
  rw [show makeDecoder fuel (.ptr .bigInt) tags = decodeBigInt from rfl]
  cases v with
  | ptr o =>
    cases o with
    | none => simpa [Ty.items, Ty.decoded] using @decodeBigInt_decodes [] (by decide)
    | some w =>
      cases w with
      | bigInt i =>
        simp only [Ty.decodesBack, decide_eq_true_eq] at hd
        simp only [Ty.items, Ty.decoded, Item.encodeList_singleton] at h64 ⊢
        have h := decodeBigInt_decodes (lt_of_le_of_lt (length_le_length_encode_str _) h64)
        rwa [beValue_beBytes, Int.toNat_of_nonneg hd] at h
      | _ => simp [Ty.decodesBack] at hd
  | _ => simp [Ty.decodesBack] at hd

mutual
/-- The decoder of a type, on the encoding of the items the writer writes for a value that decodes back, returns
the value as `Ty.decoded` says and reads exactly that encoding. -/
theorem makeDecoder_decodes (fuel : Nat) : ∀ (t : Ty) (tags : Tags) (v : Val), t.typeError = none →
    (tags.tail = true → t = .bytes) → t.decodesBack tags v = true →
    (Item.encodeList (t.items tags v)).length < fuel + 1 → (Item.encodeList (t.items tags v)).length < 2 ^ 64 →
    Decodes (makeDecoder (fuel + 1) t tags) (Item.encodeList (t.items tags v)) (t.decoded tags v)
  | .uint k, tags, v, _, _, hd, _, _ => by
    cases v <;> simp only [Ty.decodesBack, decide_eq_true_eq, Bool.false_eq_true] at hd
    simp only [Ty.items, Ty.decoded, Item.encodeList_singleton]
    exact decodeUint_decodes hd
  | .bool, tags, v, _, _, hd, hlen, h64 => by
    cases v <;> simp only [Ty.decodesBack, Bool.false_eq_true] at hd
    rename_i b
    simp only [Ty.items, Ty.decoded, Item.encodeList_singleton]
    exact decodeBool_decodes b
  | .string, tags, v, _, _, hd, hlen, h64 => by
    cases v <;> simp only [Ty.decodesBack, Bool.false_eq_true] at hd
    rename_i bs
    simp only [Ty.items, Ty.decoded, Item.encodeList_singleton] at h64 ⊢
    exact decodeString_decodes (lt_of_le_of_lt (length_le_length_encode_str bs) h64)
  | .bytes, tags, v, _, _, hd, hlen, h64 => by
    cases v <;> simp only [Ty.decodesBack, Bool.false_eq_true] at hd
    rename_i bs
    simp only [Ty.items, Ty.decoded, Item.encodeList_singleton] at h64 ⊢
    exact decodeString_decodes (lt_of_le_of_lt (length_le_length_encode_str bs) h64)
  | .byteArray n, tags, v, _, _, hd, hlen, h64 => by
    cases v <;> simp only [Ty.decodesBack, Bool.false_eq_true, Bool.and_eq_true, beq_iff_eq, bne_iff_ne, ne_eq] at hd
    rename_i bs
    simp only [Ty.items, Ty.decoded, Item.encodeList_singleton] at h64 ⊢
    exact decodeByteArray_decodes hd.1 hd.2 (lt_of_le_of_lt (length_le_length_encode_str bs) h64)
  | .bigInt, tags, v, _, _, hd, hlen, h64 => by
    cases v <;> simp only [Ty.decodesBack, decide_eq_true_eq, Bool.false_eq_true] at hd
    rename_i i
    simp only [Ty.items, Ty.decoded, Item.encodeList_singleton] at h64 ⊢
    have h := decodeBigIntNoPtr_decodes (lt_of_le_of_lt (length_le_length_encode_str _) h64)
    rwa [beValue_beBytes, Int.toNat_of_nonneg hd] at h
  | .iface, tags, v, _, _, hd, hlen, h64 => by
    simp only [Ty.items, Ty.decoded, Item.encodeList_singleton] at hlen h64 ⊢
    exact decodeInterface_decodes (fuel + 1) v (by simpa [Ty.decodesBack] using hd) hlen h64
  | .slice e, tags, v, ht, htail, hd, hlen, h64 => by
    have htf : tags.tail = false := by
      cases h : tags.tail
      · rfl
      · exact absurd (htail h) nofun
    cases v <;> simp only [Ty.decodesBack, Bool.false_eq_true, List.all_eq_true] at hd
    rename_i vs
    simp only [Ty.items, htf, Bool.false_eq_true, if_false, Item.encodeList_singleton] at hlen h64 ⊢
    simp only [Ty.decoded]
    have hlen' : (Item.encodeList (vs.flatMap (e.items {}))).length < fuel + 1 := by
      rw [Item.encode, List.length_append] at hlen
      omega
    have h64' : (Item.encodeList (vs.flatMap (e.items {}))).length < 2 ^ 64 := by
      rw [Item.encode, List.length_append] at h64
      omega
    obtain ⟨hne, hx, hcount⟩ := elements_decode hd hlen' h64'
      fun v hv => makeDecoder_decodes fuel e {} v ht nofun (hd v hv)
    exact decodes_slice htf hne hx hcount h64'
  | .array n e, tags, v, ht, htail, hd, hlen, h64 => by
    have htf : tags.tail = false := by
      cases h : tags.tail
      · rfl
      · exact absurd (htail h) nofun
    cases v <;> simp only [Ty.decodesBack, Bool.false_eq_true, Bool.and_eq_true, beq_iff_eq, List.all_eq_true] at hd
    rename_i vs
    simp only [Ty.items, htf, Bool.false_eq_true, if_false, Item.encodeList_singleton] at hlen h64 ⊢
    simp only [Ty.decoded]
    have hlen' : (Item.encodeList (vs.flatMap (e.items {}))).length < fuel + 1 := by
      rw [Item.encode, List.length_append] at hlen
      omega
    have h64' : (Item.encodeList (vs.flatMap (e.items {}))).length < 2 ^ 64 := by
      rw [Item.encode, List.length_append] at h64
      omega
    obtain ⟨-, hx, -⟩ := elements_decode hd.2 hlen' h64'
      fun v hv => makeDecoder_decodes fuel e {} v ht nofun (hd.2 v hv)
    exact decodes_array hd.1 hx h64'
  | .struct fs, tags, v, ht, _, hd, hlen, h64 => by
    cases v <;> simp only [Ty.decodesBack, Bool.false_eq_true] at hd
    rename_i vs
    simp only [Ty.items, Ty.decoded, Item.encodeList_singleton] at hlen h64 ⊢
    rw [Item.encode] at hlen h64 ⊢
    rw [List.length_append] at hlen h64
    exact decodes_struct (makeStructDecoder_decodes fuel fs vs ht hd (by omega) (by omega)) (by omega)
  | .ptr e, tags, v, ht, _, hd, hlen, h64 => by
    by_cases he : e = .bigInt
    · subst he
      exact decodes_ptr_bigInt hd h64
    rw [makeDecoder_ptr he]
    cases v with
    | ptr o =>
      cases o with
      | none =>
        rw [Ty.decodesBack_ptr_none he] at hd
        rw [Ty.decoded_ptr_none he]
        by_cases hnil : tags.nilOK
        · rw [if_pos hnil, if_pos hnil]
          rw [Ty.items_ptr_none, Item.encodeList_singleton] at h64 ⊢
          exact makeOptionalPtrDecoder_nil (by split <;> rfl) h64
        · have hnd : e.nilDecodes = true := by simpa [hnil] using hd
          rw [if_neg hnil, if_neg hnil]
          rw [Ty.items_ptr_none_eq_zero e tags hnd] at hlen h64 ⊢
          exact makePtrDecoder_decodes
            (makeDecoder_decodes fuel e {} e.zero ht nofun (Ty.decodesBack_zero e hnd) hlen h64)
      | some w =>
        rw [Ty.decodesBack_ptr_some he] at hd
        rw [Ty.decoded_ptr_some he, Ty.items_ptr_some he] at ⊢
        rw [Ty.items_ptr_some he] at hlen h64
        have hx := makeDecoder_decodes fuel e {} w ht nofun hd hlen h64
        obtain ⟨i, hi⟩ := Ty.items_singleton e {} w hd nofun
        rw [hi, Item.encodeList_singleton] at hx h64 ⊢
        by_cases hnil : tags.nilOK
        · rw [if_pos hnil]
          cases hie : i.isEmpty
          · simp only [hnil, hie, List.all_cons, List.all_nil, Bool.and_true, Bool.false_eq_true, if_false]
            exact makeOptionalPtrDecoder_some hie h64 (startsWithKind_makeDecoder fuel e).kindFirst hx
          · simp only [hnil, hie, List.all_cons, List.all_nil, Bool.and_self, if_true]
            exact makeOptionalPtrDecoder_nil hie h64
        · rw [if_neg hnil]
          simp only [hnil, Bool.false_and, Bool.false_eq_true, if_false]
          exact makePtrDecoder_decodes hx
    | _ => cases e <;> simp [Ty.decodesBack] at hd

/-- The field loop of a struct, on the encodings of its fields' items up to the end of the list, returns the
fields as `Fields.decoded` says. -/
theorem makeStructDecoder_decodes (fuel : Nat) : ∀ (fs : Fields) (vs : List Val), fs.typeError = none →
    fs.decodesBack vs = true → (Item.encodeList (fs.items vs)).length < fuel + 1 →
    (Item.encodeList (fs.items vs)).length < 2 ^ 64 →
    DecodesWithin (makeStructDecoder (fuel + 1) fs) (Item.encodeList (fs.items vs)) (fs.decoded vs) 0
  | .nil, [], _, _, _, _ => fun s _ hk _ _ _ _ => ⟨s, rfl, Read.zero hk⟩
  | .cons name t tags fs, v :: vs, ht, hd, hlen, h64 => by
    obtain ⟨htail, hfs, ht'⟩ := Fields.typeError_cons_eq_none ht
    simp only [Fields.decodesBack, Bool.and_eq_true, Bool.or_eq_true] at hd
    obtain ⟨hdv, hdvs⟩ := hd
    simp only [Fields.items, Fields.decoded, Item.encodeList_append, List.length_append] at hlen h64 ⊢
    cases hi : tags.ignored
    · simp only [hi, Bool.false_eq_true, if_false, false_or] at hlen h64 hdv ⊢
      refine makeStructDecoder_cons_within hi ?_
        (makeStructDecoder_decodes fuel fs vs hfs hdvs (by omega) (by omega))
      cases htl : tags.tail
      · exact (makeDecoder_decodes fuel t tags v (ht' hi) (by simp [htl]) hdv (by omega) (by omega)).within _
      -- a `"tail"` is the last field: a byte slice, read as one, or a slice read to the end of the list
      obtain ⟨hnil, hslice⟩ := htail htl
      cases fs with
      | cons _ _ _ _ => simp [Fields.isNil] at hnil
      | nil =>
        cases vs with
        | cons _ _ => simp [Fields.decodesBack] at hdvs
        | nil =>
          simp only [Fields.items, Item.encodeList_nil, List.length_nil, Nat.add_zero] at hlen h64 ⊢
          match t, hslice with
          | .bytes, _ => exact (makeDecoder_decodes fuel .bytes tags v (ht' hi) (fun _ => rfl) hdv hlen h64).within 0
          | .slice e, _ =>
            cases v <;> simp only [Ty.decodesBack, Bool.false_eq_true, List.all_eq_true] at hdv
            rename_i ws
            simp only [Ty.items, htl, if_true] at hlen h64 ⊢
            simp only [Ty.decoded]
            obtain ⟨-, hx, hcount⟩ := elements_decode hdv hlen h64
              fun w hw => makeDecoder_decodes fuel e {} w (ht' hi) nofun (hdv w hw)
            exact tail_within htl hx hcount
    · simp only [if_pos hi, Item.encodeList_nil, List.nil_append, List.length_nil, Nat.zero_add] at hlen h64 ⊢
      exact makeStructDecoder_ignored_within hi (makeStructDecoder_decodes fuel fs vs hfs hdvs hlen h64)
  | .nil, _ :: _, _, hd, _, _ | .cons .., [], _, hd, _, _ => by simp [Fields.decodesBack] at hd
end

end Etherzero.Rlp
