import Mathlib
import Etherzero.Lib.BigEndian
import Etherzero.Rlp.Types
import Etherzero.Rlp.Item

/-!
# Values, items and their encodings: the facts the writer and decoder proofs share

The encoding of a list of items is the concatenation of their encodings, zero values are values of their type that
the writers accept, and an interface value holds no big integer.
-/

namespace Etherzero.Rlp

@[simp] theorem Item.encodeList_nil : Item.encodeList [] = [] := by
  simp [Item.encodeList]

@[simp] theorem Item.encodeList_cons (i : Item) (is : List Item) :
    Item.encodeList (i :: is) = i.encode ++ Item.encodeList is := by
  simp [Item.encodeList]

@[simp] theorem Item.encodeList_append (is js : List Item) :
    Item.encodeList (is ++ js) = Item.encodeList is ++ Item.encodeList js := by
  induction is with
  | nil => simp
  | cons i is ih => simp [ih]

@[simp] theorem Item.encodeList_singleton (i : Item) : Item.encodeList [i] = i.encode := by
  simp

theorem Item.encodeList_flatMap {α : Type} (f : α → List Item) (xs : List α) :
    Item.encodeList (xs.flatMap f) = xs.flatMap fun x => Item.encodeList (f x) := by
  induction xs with
  | nil => simp
  | cons x xs ih => simp [ih]

/-- Every item has a non-empty encoding. -/
theorem Item.length_encode_pos (i : Item) : 0 < i.encode.length := by
  cases i with
  | str bs =>
    rw [Item.encode]
    split
    · rename_i hs
      match bs, hs with
      | [_], _ => simp
    · unfold lengthPrefix
      split <;> simp
  | list is =>
    rw [Item.encode]
    unfold lengthPrefix
    split <;> simp

theorem Val.ifaceItems_eq_map (vs : List Val) : Val.ifaceItems vs = vs.map Val.ifaceItem := by
  induction vs with
  | nil => rfl
  | cons v vs ih => simp [Val.ifaceItems, ih]

theorem Val.ifaceDecodedList_eq_map (vs : List Val) : Val.ifaceDecodedList vs = vs.map Val.ifaceDecoded := by
  induction vs with
  | nil => rfl
  | cons v vs ih => simp [Val.ifaceDecodedList, ih]

theorem Val.nonnegList_eq_all (vs : List Val) : Val.nonnegList vs = vs.all Val.nonneg := by
  induction vs with
  | nil => rfl
  | cons v vs ih => simp [Val.nonnegList, ih]

theorem Val.isIfaceList_eq_all (vs : List Val) : Val.isIfaceList vs = vs.all Val.isIface := by
  induction vs with
  | nil => rfl
  | cons v vs ih => simp [Val.isIfaceList, ih]

mutual
/-- A zero value is a value of its type. -/
theorem Ty.check_zero : ∀ t : Ty, t.check t.zero = true
  | .uint _ => by simp [Ty.zero, Ty.check]
  | .bool => rfl
  | .string => rfl
  | .bigInt => rfl
  | .bytes => rfl
  | .byteArray n => by simp [Ty.zero, Ty.check]
  | .slice _ => rfl
  | .array n e => by simp [Ty.zero, Ty.check, Ty.check_zero e]
  | .struct fs => by simp [Ty.zero, Ty.check, Fields.check_zero fs]
  | .ptr _ => rfl
  | .iface => rfl

theorem Fields.check_zero : ∀ fs : Fields, fs.check fs.zero = true
  | .nil => rfl
  | .cons _ t _ fs => by simp [Fields.zero, Fields.check, Ty.check_zero t, Fields.check_zero fs]
end

mutual
/-- A zero value holds no negative big integer. -/
theorem Ty.nonneg_zero : ∀ t : Ty, t.zero.nonneg = true
  | .uint _ => rfl
  | .bool => rfl
  | .string => rfl
  | .bigInt => by simp [Ty.zero, Val.nonneg]
  | .bytes => rfl
  | .byteArray _ => rfl
  | .slice _ => rfl
  | .array n e => by simp [Ty.zero, Val.nonneg, Val.nonnegList_eq_all, Ty.nonneg_zero e]
  | .struct fs => by simp [Ty.zero, Val.nonneg, Fields.nonneg_zero fs]
  | .ptr _ => rfl
  | .iface => rfl

theorem Fields.nonneg_zero : ∀ fs : Fields, Val.nonnegList fs.zero = true
  | .nil => rfl
  | .cons _ t _ fs => by simp [Fields.zero, Val.nonnegList, Ty.nonneg_zero t, Fields.nonneg_zero fs]
end

mutual
/-- An interface value holds no big integer. -/
theorem Val.nonneg_of_isIface : ∀ v : Val, v.isIface = true → v.nonneg = true
  | .ifaceNil, _ => rfl
  | .ifaceBytes _, _ => rfl
  | .ifaceList _, _ => rfl
  | .uint _, h | .bool _, h | .bytes _, h | .bigInt _, h | .list _, h | .ptr _, h => by simp [Val.isIface] at h

theorem Val.nonnegList_of_isIfaceList : ∀ vs : List Val, Val.isIfaceList vs = true → Val.nonnegList vs = true
  | [], _ => rfl
  | v :: vs, h => by
    simp only [Val.isIfaceList, Bool.and_eq_true] at h
    simp [Val.nonnegList, Val.nonneg_of_isIface v h.1, Val.nonnegList_of_isIfaceList vs h.2]
end

/-- A big-endian magnitude is its own encoding exactly when it is one byte below `0x80`. -/
theorem isSingleByte_beBytes (n : Nat) : isSingleByte (beBytes n) = decide (0 < n ∧ n < 128) := by
  rcases Nat.lt_or_ge n 256 with hn | hn
  · rcases Nat.eq_zero_or_pos n with rfl | hpos
    · rfl
    · have hd : beBytes n = [UInt8.ofNat n] := by
        simp [beBytes, Nat.digits_of_lt 256 n (by omega) hn]
      rw [hd, isSingleByte]
      simp only [hpos, true_and]
      rw [decide_eq_decide]
      rw [UInt8.lt_iff_toNat_lt, UInt8.toNat_ofNat_of_lt' hn]
      simp
  · have h2 : 2 ≤ (beBytes n).length := by
      by_contra hlt
      have : n < 256 ^ 1 := length_beBytes_le_iff.mp (by omega)
      omega
    obtain ⟨a, b, rest, hab⟩ : ∃ a b rest, beBytes n = a :: b :: rest := by
      rcases hb : beBytes n with _ | ⟨a, _ | ⟨b, rest⟩⟩
      · rw [hb] at h2; simp at h2
      · rw [hb] at h2; simp at h2
      · exact ⟨a, b, rest, rfl⟩
    rw [hab]
    simp [isSingleByte]
    omega

/-! ## Nil pointers and the values that decode back -/

/-- A pointer other than `*big.Int` that is not nil is written as what it points to. -/
theorem Ty.items_ptr_some {e : Ty} (he : e ≠ .bigInt) (tags : Tags) (v : Val) :
    (Ty.ptr e).items tags (.ptr (some v)) = e.items {} v := by
  cases e <;> first | exact absurd rfl he | rfl

/-- A nil pointer is written as the empty list or the empty string, as `nilIsList` says. -/
theorem Ty.items_ptr_none : ∀ (e : Ty) (tags : Tags),
    (Ty.ptr e).items tags (.ptr none) = [if e.nilIsList then .list [] else .str []]
  | .ptr e, _ => by
    rw [show (Ty.ptr (.ptr e)).items _ (.ptr none) = (Ty.ptr e).items {} (.ptr none) from rfl,
      Ty.items_ptr_none e {}]
    rfl
  | .uint _, _ | .bool, _ | .string, _ | .bigInt, _ | .bytes, _ | .byteArray _, _ | .slice _, _ | .array .., _
  | .struct _, _ | .iface, _ => by simp [Ty.items, Ty.zero, Ty.nilIsList, Val.ifaceItem]

/-- The fields of a struct whose nil pointer decodes write nothing for its zero value. -/
theorem Fields.items_zero_of_nilDecodes : ∀ fs : Fields, fs.nilDecodes = true → fs.items fs.zero = []
  | .nil, _ => rfl
  | .cons _ t tags fs, h => by
    simp only [Fields.nilDecodes, Bool.and_eq_true, Bool.or_eq_true] at h
    obtain ⟨ht, hfs⟩ := h
    rw [Fields.zero, Fields.items, Fields.items_zero_of_nilDecodes fs hfs, List.append_nil]
    rcases ht with hi | ⟨htail, hs⟩
    · simp [hi]
    · match t, hs with
      | .slice _, _ => simp [Ty.zero, Ty.items, htail]

/-- Where a nil pointer decodes, it is written as the zero value of its element type. -/
theorem Ty.items_ptr_none_eq_zero : ∀ (e : Ty) (tags : Tags), e.nilDecodes = true →
    (Ty.ptr e).items tags (.ptr none) = e.items {} e.zero
  | .byteArray n, _, h => by
    obtain rfl : n = 0 := by simpa [Ty.nilDecodes] using h
    rfl
  | .array n _, _, h => by
    obtain rfl : n = 0 := by simpa [Ty.nilDecodes] using h
    simp [Ty.items, Ty.zero]
  | .struct fs, _, h => by
    simp [Ty.items, Ty.zero, Fields.items_zero_of_nilDecodes fs (by simpa [Ty.nilDecodes] using h)]
  | .uint _, _, _ | .bool, _, _ | .string, _, _ | .bigInt, _, _ | .bytes, _, _ | .slice _, _, _ | .ptr _, _, _
  | .iface, _, _ => by simp [Ty.items, Ty.zero]

/-- The fields of a struct whose nil pointer decodes: their zero values decode back. -/
theorem Fields.decodesBack_zero : ∀ fs : Fields, fs.nilDecodes = true → fs.decodesBack fs.zero = true
  | .nil, _ => rfl
  | .cons _ t tags fs, h => by
    simp only [Fields.nilDecodes, Bool.and_eq_true, Bool.or_eq_true] at h
    obtain ⟨ht, hfs⟩ := h
    simp only [Fields.zero, Fields.decodesBack, Fields.decodesBack_zero fs hfs, Bool.and_true, Bool.or_eq_true]
    rcases ht with hi | ⟨-, hs⟩
    · exact Or.inl hi
    · match t, hs with
      | .slice _, _ => exact Or.inr (by simp [Ty.zero, Ty.decodesBack])

/-- The zero value of a type whose nil pointer decodes decodes back. -/
theorem Ty.decodesBack_zero : ∀ e : Ty, e.nilDecodes = true → e.decodesBack {} e.zero = true
  | .byteArray n, h => by
    obtain rfl : n = 0 := by simpa [Ty.nilDecodes] using h
    rfl
  | .array n _, h => by
    obtain rfl : n = 0 := by simpa [Ty.nilDecodes] using h
    simp [Ty.zero, Ty.decodesBack]
  | .struct fs, h => by
    simpa [Ty.zero, Ty.decodesBack] using Fields.decodesBack_zero fs (by simpa [Ty.nilDecodes] using h)
  | .ptr e, h => by
    cases e <;> simp_all [Ty.zero, Ty.decodesBack, Ty.nilDecodes]
  | .uint _, _ | .bool, _ | .string, _ | .bigInt, _ | .bytes, _ | .slice _, _ | .iface, _ => by
    simp [Ty.zero, Ty.decodesBack, Val.isIface]

/-- The empty tags have no `"tail"`. -/
theorem Tags.empty_tail_elim {P : Prop} (h : ({} : Tags).tail = true) : P :=
  absurd h Bool.false_ne_true

/-- A value that decodes back is written as one item, unless it is a `"tail"` slice. -/
theorem Ty.items_singleton : ∀ (t : Ty) (tags : Tags) (v : Val), t.decodesBack tags v = true →
    (tags.tail = true → t = .bytes) → ∃ i, t.items tags v = [i] := by
  intro t tags v h ht
  -- the recursion is on the type, through the pointers
  cases t with
  | ptr e =>
    cases v with
    | ptr o =>
      cases o with
      | none => exact ⟨_, Ty.items_ptr_none e tags⟩
      | some v =>
        by_cases he : e = .bigInt
        · subst he
          cases v with
          | bigInt _ => exact ⟨_, rfl⟩
          | _ => simp_all [Ty.decodesBack]
        rw [Ty.items_ptr_some he]
        exact Ty.items_singleton e {} v (by cases e <;> simp_all [Ty.decodesBack]) Tags.empty_tail_elim
    | _ => simp [Ty.decodesBack] at h
  | slice e =>
    cases v with
    | list vs =>
      have : tags.tail = false := by cases h : tags.tail <;> simp_all
      exact ⟨.list (vs.flatMap (e.items {})), by simp [Ty.items, this]⟩
    | _ => simp [Ty.decodesBack] at h
  | array _ e =>
    cases v with
    | list vs =>
      have : tags.tail = false := by cases h : tags.tail <;> simp_all
      exact ⟨.list (vs.flatMap (e.items {})), by simp [Ty.items, this]⟩
    | _ => simp [Ty.decodesBack] at h
  | iface => exact ⟨_, rfl⟩
  | _ => cases v <;> first | exact ⟨_, rfl⟩ | simp [Ty.decodesBack] at h

end Etherzero.Rlp
