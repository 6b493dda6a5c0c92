import Mathlib
import Etherzero.Lib.BigEndian
import Etherzero.Lib.StateExcept
import Etherzero.Rlp.Stream
import Etherzero.Rlp.Decode
import Etherzero.Rlp.Item
import Etherzero.Lemmas.RlpValue
import Etherzero.Lemmas.RlpStream
import Etherzero.Lemmas.RlpRead
import Etherzero.Lemmas.RlpDecoder
import Etherzero.Lemmas.RlpLoops
import Etherzero.Lemmas.RlpPointer
import Etherzero.Lemmas.RlpRoundTrip

/-!
# What a decoder that returned has read

The backward induction over types and fields: a decoder that returned, with nothing cached before, read the
encoding of one item; its result is a value of its type without a negative big integer, and the writer writes that
item for it again unless the item is one that `readsBack` excludes (a big integer with a leading zero byte, or an
empty value that a `"nil"`-tagged pointer reads as nil although its type's nil pointer is written the other way).
A `[1]byte` that read the byte zero leaves the byte's kind cached; results that hold one are left out.
-/

namespace Etherzero.Rlp

open Etherzero.Rlp.Stream

/-- `x` is a value of `t` without a negative big integer, and the writer writes `i` for it when `i` reads back. -/
def Ty.WritesBack (t : Ty) (tags : Tags) (x : Val) (i : Item) : Prop :=
  t.check x = true ∧ x.nonneg = true ∧ (t.readsBack tags i = true → t.items tags x = [i])

/-- Elements each written back as their items: a value list of the slice or array type, written as the items. -/
theorem Ty.WritesBack.list {e : Ty} {vs : List Val} {is : List Item}
    (h : List.Forall₂ (e.WritesBack {}) vs is) :
    vs.all e.check = true ∧ Val.nonnegList vs = true ∧
      (is.all (e.readsBack {}) = true → vs.flatMap (e.items {}) = is) := by
  induction h with
  | nil => exact ⟨rfl, rfl, fun _ => rfl⟩
  | cons hw _ ih =>
    obtain ⟨hc, hn, hi⟩ := hw
    obtain ⟨hcs, hns, his⟩ := ih
    refine ⟨by simp [hc, hcs], by simp [Val.nonnegList, hn, hns], fun hr => ?_⟩
    simp only [List.all_cons, Bool.and_eq_true] at hr
    rw [List.flatMap_cons, hi hr.1, his hr.2, List.singleton_append]

theorem Ty.readsBack_ptr {e : Ty} (he : e ≠ .bigInt) (tags : Tags) (i : Item) :
    (Ty.ptr e).readsBack tags i =
      if tags.nilOK && i.isEmpty then i.isList == e.nilIsList else e.readsBack {} i := by
  cases e <;> first | exact absurd rfl he | rfl

theorem Fields.readsBack_ignored {name : String} {t : Ty} {tags : Tags} {fs : Fields} (hi : tags.ignored = true)
    (is : List Item) : (Fields.cons name t tags fs).readsBack is = fs.readsBack is := by
  rw [Fields.readsBack.eq_def (.cons name t tags fs)]
  exact if_pos hi

/-- A field that is read and is not a slice read to the end of the list reads one item, then the other fields. -/
theorem Fields.readsBack_cons {name : String} {t : Ty} {tags : Tags} {fs : Fields} (hi : tags.ignored = false)
    (ht : tags.tail = false ∨ t = .bytes) (i : Item) (is : List Item) :
    (Fields.cons name t tags fs).readsBack (i :: is) = (t.readsBack tags i && fs.readsBack is) := by
  rw [Fields.readsBack, hi, if_neg Bool.false_ne_true]
  -- the equation of the second alternative holds off a "tail" slice
  rintro e rfl htl
  rcases ht with ht | ht
  · rw [ht] at htl
    cases htl
  · cases ht

/-- A `"tail"` slice reads back when its elements do. -/
theorem Fields.readsBack_tail {name : String} {e : Ty} {tags : Tags} {fs : Fields} (hi : tags.ignored = false)
    (ht : tags.tail = true) (is : List Item) :
    (Fields.cons name (.slice e) tags fs).readsBack is = is.all (e.readsBack {}) := by
  rw [Fields.readsBack, hi, if_neg Bool.false_ne_true]
  exact ht

/-- The field values are values of their fields' types without a negative big integer, and the writer writes `is`
for them when `is` reads back. -/
def Fields.WritesBack (fs : Fields) (vs : List Val) (is : List Item) : Prop :=
  fs.check vs = true ∧ Val.nonnegList vs = true ∧ (fs.readsBack is = true → fs.items vs = is)

theorem Fields.WritesBack.nil : Fields.nil.WritesBack [] [] := ⟨rfl, rfl, fun _ => rfl⟩

theorem Fields.WritesBack.ignored {name : String} {t : Ty} {tags : Tags} {fs : Fields} (hi : tags.ignored = true)
    {vs : List Val} {is : List Item} (h : fs.WritesBack vs is) :
    (Fields.cons name t tags fs).WritesBack (t.zero :: vs) is := by
  obtain ⟨hc, hn, his⟩ := h
  refine ⟨by simp [Fields.check, t.check_zero, hc], by simp [Val.nonnegList, t.nonneg_zero, hn], fun hb => ?_⟩
  rw [Fields.readsBack_ignored hi] at hb
  simp [Fields.items, hi, his hb]

theorem Fields.WritesBack.cons {name : String} {t : Ty} {tags : Tags} {fs : Fields} (hi : tags.ignored = false)
    (ht : tags.tail = false ∨ t = .bytes) {v : Val} {vs : List Val} {i : Item} {is : List Item}
    (hv : t.WritesBack tags v i) (h : fs.WritesBack vs is) :
    (Fields.cons name t tags fs).WritesBack (v :: vs) (i :: is) := by
  obtain ⟨hc, hn, hvi⟩ := hv
  obtain ⟨hcs, hns, his⟩ := h
  refine ⟨by simp [Fields.check, hc, hcs], by simp [Val.nonnegList, hn, hns], fun hb => ?_⟩
  rw [Fields.readsBack_cons hi ht, Bool.and_eq_true] at hb
  simp [Fields.items, hi, hvi hb.1, his hb.2]

/-- A `"tail"` slice, the last field, written back as the items of its elements. -/
theorem Fields.WritesBack.tail {name : String} {e : Ty} {tags : Tags} (hi : tags.ignored = false)
    (ht : tags.tail = true) {ws : List Val} {is : List Item} (h : List.Forall₂ (e.WritesBack {}) ws is) :
    (Fields.cons name (.slice e) tags .nil).WritesBack [.list ws] is := by
  obtain ⟨hc, hn, his⟩ := Ty.WritesBack.list h
  refine ⟨by simp [Fields.check, Ty.check, hc], by simp [Val.nonnegList, Val.nonneg, hn], fun hb => ?_⟩
  rw [Fields.readsBack_tail hi ht] at hb
  simp [Fields.items, Ty.items, hi, ht, his hb]

/-- One turn of the field loop that returned, for a field that is read: the field returned, then the rest. -/
theorem makeStructDecoder_cons_inv {fuel : Nat} {name : String} {t : Ty} {tags : Tags} {fs : Fields}
    (hi : tags.ignored = false) {s s' : Stream} {vs : List Val}
    (h : exec (makeStructDecoder fuel (.cons name t tags fs)) s = (.ok vs, s')) :
    ∃ v vs' s₁, vs = v :: vs' ∧ exec (makeDecoder fuel t tags) s = (.ok v, s₁) ∧
      exec (makeStructDecoder fuel fs) s₁ = (.ok vs', s') := by
  rw [makeStructDecoder, if_neg (by simp [hi]), exec_bind, exec_observing] at h
  rcases hx : exec (makeDecoder fuel t tags) s with ⟨e | v, s₁⟩ <;> rw [hx] at h <;> simp only at h
  · split at h <;> simp_all
  · obtain ⟨vs', s₂, hrest, h⟩ := exec_bind_eq_ok h
    simp only [exec_pure, Prod.mk.injEq, Except.ok.injEq] at h
    obtain ⟨rfl, rfl⟩ := h
    exact ⟨v, vs', s₁, rfl, rfl, hrest⟩

/-- A struct decoder that returned read the list of what its field loop read. -/
theorem makeDecoder_struct_inv {fuel : Nat} {fs : Fields} {tags : Tags} {s s' : Stream} {x : Val} (hk : s.kind = none)
    (hl : s.limited = true) (h : exec (makeDecoder fuel (.struct fs) tags) s = (.ok x, s')) :
    ∃ m vs s₂, x = .list vs ∧ s.r = lengthPrefix 0xC0 0xF7 m ++ (s.enter m).r ∧
      exec (makeStructDecoder fuel fs) (s.enter m) = (.ok vs, s₂) ∧ exec Stream.listEnd s₂ = (.ok (), s') := by
  change exec (wrapped Stream.list >>= fun _ => makeStructDecoder fuel fs >>= fun vs =>
    wrapped Stream.listEnd >>= fun _ => pure (Val.list vs)) s = _ at h
  obtain ⟨m, s₁, hlist, h⟩ := exec_bind_eq_ok h
  obtain ⟨hr, rfl⟩ := list_inv hk hl (exec_wrapped_ok.mp hlist)
  obtain ⟨vs, s₂, hfields, h⟩ := exec_bind_eq_ok h
  obtain ⟨_, s₃, hend, hp⟩ := exec_bind_eq_ok h
  simp only [exec_pure, Prod.mk.injEq, Except.ok.injEq] at hp
  obtain ⟨rfl, rfl⟩ := hp
  exact ⟨m, vs, s₂, rfl, hr, hfields, exec_wrapped_ok.mp hend⟩

/-- A string without a leading zero byte, read as a big integer, is written back as itself. -/
theorem beBytes_toNat_beValue {bs : List UInt8} (h : (bs.head? != some 0) = true) :
    beBytes (beValue bs : Int).toNat = bs := by
  rw [Int.toNat_natCast, beBytes_beValue (by simpa using h)]

namespace Stream

theorem Read.r_of_append {s s' : Stream} {n : Nat} {X Y : List UInt8} (h : Read s s' n) (hr : s.r = X ++ Y)
    (hn : X.length = n) : s'.r = Y := by
  rw [h.r, hr, ← hn, List.drop_left]

end Stream

/-! ## Backward: what a decoder that returned has read -/

mutual
/-- A decoder that returned, with nothing cached before, read the encoding of one item, and its result is written
back as that item when the item reads back; a result that holds a `[1]byte` of the byte zero is left out. -/
theorem makeDecoder_decodedFrom (fuel : Nat) : ∀ (t : Ty) (tags : Tags), t.typeError = none →
    (tags.tail = true → t = .bytes) → ∀ (s s' : Stream) (x : Val), s.kind = none → s.limited = true →
    exec (makeDecoder (fuel + 1) t tags) s = (.ok x, s') → t.zeroByteFree x = true →
    ∃ i : Item, s.r = i.encode ++ s'.r ∧ Read s s' i.encode.length ∧ t.WritesBack tags x i
  | .uint k, tags, _, _, s, s', x, hk, hl, h, _ => by
    obtain ⟨i, hr, hread, n, rfl, rfl, hn⟩ := decodeUint_decodedFrom k s s' x hk hl h
    exact ⟨_, hr, hread, decide_eq_true hn, rfl, fun _ => rfl⟩
  | .bool, tags, _, _, s, s', x, hk, hl, h, _ => by
    obtain ⟨i, hr, hread, b, rfl, rfl⟩ := decodeBool_decodedFrom s s' x hk hl h
    exact ⟨_, hr, hread, rfl, rfl, fun _ => rfl⟩
  | .string, tags, _, _, s, s', x, hk, hl, h, _ => by
    obtain ⟨i, hr, hread, bs, rfl, rfl⟩ := decodeString_decodedFrom s s' x hk hl h
    exact ⟨_, hr, hread, rfl, rfl, fun _ => rfl⟩
  | .bytes, tags, _, _, s, s', x, hk, hl, h, _ => by
    obtain ⟨i, hr, hread, bs, rfl, rfl⟩ := decodeString_decodedFrom s s' x hk hl h
    exact ⟨_, hr, hread, rfl, rfl, fun _ => rfl⟩
  | .byteArray n, tags, _, _, s, s', x, hk, hl, h, hz => by
    have hx : x ≠ .bytes [0] := by
      rintro rfl
      simp [Ty.zeroByteFree] at hz
    obtain ⟨bs, rfl, hlen, hr, hread⟩ := decodeByteArray_inv hk hl h hx
    exact ⟨_, hr, hread, by simp [Ty.check, hlen], rfl, fun _ => rfl⟩
  | .bigInt, tags, _, _, s, s', x, hk, hl, h, _ => by
    obtain ⟨i, hr, hread, bs, rfl, rfl⟩ := decodeBigIntNoPtr_decodedFrom s s' x hk hl h
    exact ⟨_, hr, hread, rfl, by simp [Val.nonneg], fun hb => by simp only [Ty.items, beBytes_toNat_beValue hb]⟩
  | .iface, tags, _, _, s, s', x, hk, hl, h, _ => by
    obtain ⟨hr, hread, hi⟩ := decodeInterface_inv (fuel + 1) s s' x hk hl h
    exact ⟨_, hr, hread, hi, Val.nonneg_of_isIface x hi, fun _ => rfl⟩
  | .slice e, tags, ht, htail, s, s', x, hk, hl, h, hz => by
    have htf : tags.tail = false := by
      cases h : tags.tail
      · rfl
      · exact absurd (htail h) nofun
    rw [makeDecoder_slice, htf, if_neg Bool.false_ne_true] at h
    obtain ⟨vs, hs, rfl⟩ := exec_map_eq_ok h
    obtain ⟨is, hr, hread, hF⟩ := decodeListSlice_inv (startsWithKind_makeDecoder fuel e).eolAtEnd
      (makeDecoder_decodedFrom fuel e {} ht nofun) hk hl hs (List.all_eq_true.mp hz)
    obtain ⟨hc, hn, his⟩ := Ty.WritesBack.list hF
    exact ⟨.list is, hr, hread, hc, hn, fun hb => by simp [Ty.items, htf, his hb]⟩
  | .array n e, tags, ht, htail, s, s', x, hk, hl, h, hz => by
    have htf : tags.tail = false := by
      cases h : tags.tail
      · rfl
      · exact absurd (htail h) nofun
    obtain ⟨vs, is, rfl, hlen, hr, hread, hF⟩ := decodeListArray_inv (startsWithKind_makeDecoder fuel e).eolAtEnd
      (makeDecoder_decodedFrom fuel e {} ht nofun) hk hl h fun vs hx => by
        subst hx
        exact List.all_eq_true.mp hz
    obtain ⟨hc, hn, his⟩ := Ty.WritesBack.list hF
    exact ⟨.list is, hr, hread, by simp [Ty.check, hlen, hc], hn, fun hb => by simp [Ty.items, htf, his hb]⟩
  | .struct fs, tags, ht, _, s, s', x, hk, hl, h, hz => by
    obtain ⟨m, vs, s₂, rfl, hr, hfields, hend⟩ := makeDecoder_struct_inv hk hl h
    obtain ⟨is, hr₂, hread₂, hc, hn, his⟩ := makeStructDecoder_decodedFrom fuel fs ht (s.enter m) s₂ vs rfl
      (by rw [enter_limited, hl]) hfields hz
    obtain ⟨rfl, hread⟩ := listEnd_enter_inv hread₂ hend
    have hr' : s.r = (Item.list is).encode ++ s₂.r := by rw [hr, hr₂, Item.encode, List.append_assoc]
    have hlen : (Item.list is).encode.length =
        (lengthPrefix 0xC0 0xF7 (Item.encodeList is).length).length + (Item.encodeList is).length := by
      rw [Item.encode, List.length_append]
    refine ⟨.list is, by rw [hread.r_of_append hr' hlen]; exact hr', hlen ▸ hread, hc, hn, fun hb => ?_⟩
    simp only [Ty.items, his hb]
  | .ptr e, tags, ht, _, s, s', x, hk, hl, h, hz => by
    by_cases he : e = .bigInt
    · subst he
      obtain ⟨i, hr, hread, bs, rfl, rfl⟩ := decodeBigInt_decodedFrom s s' x hk hl h
      exact ⟨_, hr, hread, rfl, by simp [Val.nonneg], fun hb => by simp only [Ty.items, beBytes_toNat_beValue hb]⟩
    rw [makeDecoder_ptr he] at h
    by_cases hnil : tags.nilOK
    · rw [if_pos hnil] at h
      rcases makeOptionalPtrDecoder_inv (startsWithKind_makeDecoder fuel e).kindFirst hk hl h with
        ⟨rfl, i, hie, hr, hread⟩ | ⟨v, rfl, hv, hne⟩
      · -- an empty item read as nil: written back as the empty value of the pointer's type
        refine ⟨i, hr, hread, rfl, rfl, fun hb => ?_⟩
        rw [Ty.readsBack_ptr he, hnil, hie, Bool.and_self, if_pos rfl, beq_iff_eq] at hb
        rw [Ty.items_ptr_none, ← hb, Item.eq_of_isEmpty hie]
      · obtain ⟨i, hr, hread, hc, hn, hi⟩ := makeDecoder_decodedFrom fuel e {} ht nofun s s' v hk hl hv hz
        refine ⟨i, hr, hread, hc, hn, fun hb => ?_⟩
        rw [Ty.readsBack_ptr he, hnil, hne i _ hr, Bool.and_false, if_neg Bool.false_ne_true] at hb
        rw [Ty.items_ptr_some he, hi hb]
    · rw [if_neg hnil] at h
      obtain ⟨v, rfl, hv⟩ := makePtrDecoder_inv h
      obtain ⟨i, hr, hread, hc, hn, hi⟩ := makeDecoder_decodedFrom fuel e {} ht nofun s s' v hk hl hv hz
      refine ⟨i, hr, hread, hc, hn, fun hb => ?_⟩
      rw [Ty.readsBack_ptr he, Bool.eq_false_iff.mpr hnil, Bool.false_and, if_neg Bool.false_ne_true] at hb
      rw [Ty.items_ptr_some he, hi hb]

/-- The field loop of a struct that returned read the encodings of items, and the fields it returned are written
back as those items when they read back. -/
theorem makeStructDecoder_decodedFrom (fuel : Nat) : ∀ fs : Fields, fs.typeError = none →
    ∀ (s s' : Stream) (vs : List Val), s.kind = none → s.limited = true →
    exec (makeStructDecoder (fuel + 1) fs) s = (.ok vs, s') → fs.zeroByteFree vs = true →
    ∃ is : List Item, s.r = Item.encodeList is ++ s'.r ∧ Read s s' (Item.encodeList is).length ∧
      fs.WritesBack vs is
  | .nil, _, s, s', vs, hk, _, h, _ => by
    simp only [makeStructDecoder, exec_pure, Prod.mk.injEq, Except.ok.injEq] at h
    obtain ⟨rfl, rfl⟩ := h
    exact ⟨[], by simp, by simpa using Read.zero hk, Fields.WritesBack.nil⟩
  | .cons name t tags fs, ht, s, s', vs, hk, hl, h, hz => by
    obtain ⟨htail, hfs, ht'⟩ := Fields.typeError_cons_eq_none ht
    cases hi : tags.ignored
    · obtain ⟨v, vs', s₁, rfl, hv, hrest⟩ := makeStructDecoder_cons_inv hi h
      simp only [Fields.zeroByteFree, hi, Bool.false_or, Bool.and_eq_true] at hz
      by_cases hone : tags.tail = false ∨ t = .bytes
      · obtain ⟨i, hr₁, hread₁, hvi⟩ := makeDecoder_decodedFrom fuel t tags (ht' hi)
          (fun htl => hone.resolve_left (by simp [htl])) s s₁ v hk hl hv hz.1
        obtain ⟨is, hr₂, hread₂, his⟩ := makeStructDecoder_decodedFrom fuel fs hfs s₁ s' vs' hread₁.kind
          (by rw [hread₁.limited, hl]) hrest hz.2
        exact ⟨i :: is, by rw [Item.encodeList_cons, hr₁, hr₂, List.append_assoc],
          by simpa using hread₁.trans hread₂, his.cons hi hone hvi⟩
      -- a `"tail"` slice, the last field, reads elements to the end of the list
      have htl : tags.tail = true := by simpa using (not_or.mp hone).1
      obtain ⟨hnil, hslice⟩ := htail htl
      cases fs with
      | cons _ _ _ _ => simp [Fields.isNil] at hnil
      | nil =>
        simp only [makeStructDecoder, exec_pure, Prod.mk.injEq, Except.ok.injEq] at hrest
        obtain ⟨rfl, rfl⟩ := hrest
        match t, hslice, hone with
        | .bytes, _, hone => exact absurd (Or.inr rfl) hone
        | .slice e, _, _ =>
          rw [makeDecoder_slice, htl, if_pos rfl] at hv
          obtain ⟨ws, hloop, rfl⟩ := exec_map_eq_ok hv
          obtain ⟨is, hr, hread, hF⟩ := decodeSliceElems_inv (startsWithKind_makeDecoder fuel e).eolAtEnd
            (makeDecoder_decodedFrom fuel e {} (ht' hi) nofun) (fuel + 1) 0 s s₁ ws hk hl hloop
            (List.all_eq_true.mp hz.1)
          exact ⟨is, hr, hread, Fields.WritesBack.tail hi htl hF⟩
    · rw [makeStructDecoder, if_pos hi] at h
      obtain ⟨vs', s₁, hrest, hp⟩ := exec_bind_eq_ok h
      simp only [exec_pure, Prod.mk.injEq, Except.ok.injEq] at hp
      obtain ⟨rfl, rfl⟩ := hp
      simp only [Fields.zeroByteFree, hi, Bool.true_or, Bool.true_and] at hz
      obtain ⟨is, hr, hread, his⟩ := makeStructDecoder_decodedFrom fuel fs hfs s s₁ vs' hk hl hrest hz
      exact ⟨is, hr, hread, his.ignored hi⟩
end

end Etherzero.Rlp
