import Mathlib
import Etherzero.Lib.BigEndian
import Etherzero.Lib.StateExcept
import Etherzero.Rlp.Encode
import Etherzero.Rlp.Item
import Etherzero.Lemmas.RlpValue
import Etherzero.Lemmas.RlpEncbuf

/-!
# The writers write the canonical encoding

`Emits x out`: from every well-formed buffer the writer `x` returns, and its writes render as `out`. The combinators
of the writers (sequencing, a list between `list` and `listEnd`, the loop over elements) compose `Emits`, and so
`makeWriter t tags v` emits the canonical encoding of `t.items tags v` for every value of `t` without a negative big
integer (`makeWriter_emits`). `EncodeToBytes` then returns that encoding (`encodeToBytes_eq`).
-/

namespace Etherzero.Rlp

/-- `x` returns from every well-formed buffer, and what it writes renders as `out`. -/
def Emits (x : EncM Unit) (out : List UInt8) : Prop :=
  ∀ w, w.Wf → ∃ w', exec x w = (.ok (), w') ∧ Writes w w' out

theorem Emits.pure : Emits (pure ()) [] := fun w _ => ⟨w, rfl, Writes.refl w⟩

theorem Emits.seq {x y : EncM Unit} {o₁ o₂ : List UInt8} (hx : Emits x o₁) (hy : Emits y o₂) :
    Emits (x >>= fun _ => y) (o₁ ++ o₂) := by
  intro w hw
  obtain ⟨w₁, hx₁, hw₁⟩ := hx w hw
  obtain ⟨w₂, hy₂, hw₂⟩ := hy w₁ (hw₁.wf hw)
  exact ⟨w₂, by rw [exec_bind_ok hx₁, hy₂], hw₁.trans hw₂⟩

theorem Emits.appendStr (bs : List UInt8) : Emits (appendStr bs) bs := fun w hw =>
  ⟨_, (appendStr_writes w hw bs).1, (appendStr_writes w hw bs).2⟩

theorem Emits.congr {x : EncM Unit} {o o' : List UInt8} (hx : Emits x o) (h : o = o') : Emits x o' := h ▸ hx

/-- A list: its header closed over what the body wrote. -/
theorem Emits.block {body : EncM Unit} {E : List UInt8} (h : Emits body E) :
    Emits (Encbuf.list >>= fun lh => body >>= fun _ => Encbuf.listEnd lh) (lengthPrefix 0xC0 0xF7 E.length ++ E) := by
  intro w hw
  obtain ⟨w₂, hb, hwr⟩ := h w.opened (Encbuf.opened_wf hw)
  obtain ⟨w₃, he, hw₃⟩ := listEnd_writes hw hwr
  exact ⟨w₃, by rw [exec_bind_ok (exec_list w), exec_bind_ok hb, he], hw₃⟩

theorem Emits.emptyList : Emits (Encbuf.list >>= Encbuf.listEnd) [0xC0] := by
  have h := Emits.block Emits.pure
  simp only [pure_bind] at h
  exact h

theorem Emits.forM {f : Val → EncM Unit} {g : Val → List UInt8} :
    ∀ {vs : List Val}, (∀ v ∈ vs, Emits (f v) (g v)) → Emits (vs.forM f) (vs.flatMap g)
  | [], _ => Emits.pure
  | v :: vs, h => by
    rw [List.flatMap_cons]
    exact (h v (by simp)).seq (Emits.forM fun v' hv => h v' (by simp [hv]))

theorem encodeStringHeader_eq (size : Nat) : encodeStringHeader size = appendStr (lengthPrefix 0x80 0xB7 size) := by
  rw [← puthead_eq_lengthPrefix]
  unfold encodeStringHeader puthead
  split <;> rfl

/-- `encodeString` writes the canonical encoding of the string. -/
theorem encodeString_emits (bs : List UInt8) : Emits (encodeString bs) (Item.str bs).encode := by
  unfold encodeString
  split
  · rename_i b0
    split
    · rename_i hb
      have hs : isSingleByte [b0] = true := by
        simp only [isSingleByte, decide_eq_true_eq, UInt8.lt_iff_toNat_lt]
        simp only [UInt8.le_iff_toNat_le] at hb
        simp at hb ⊢
        omega
      rw [Item.encode, if_pos hs]
      exact Emits.appendStr _
    · rename_i hb
      have hs : isSingleByte [b0] = false := by
        simp only [isSingleByte, decide_eq_false_iff_not, UInt8.lt_iff_toNat_lt]
        simp only [UInt8.le_iff_toNat_le] at hb
        simp at hb ⊢
        omega
      rw [Item.encode, if_neg (by simp [hs]), encodeStringHeader_eq]
      exact (Emits.appendStr _).seq (Emits.appendStr _)
  · rename_i hne
    have hs : isSingleByte bs = false := by
      unfold isSingleByte
      split
      · rename_i b0
        exact absurd rfl (hne b0)
      · rfl
    rw [Item.encode, if_neg (by simp [hs]), encodeStringHeader_eq]
    exact (Emits.appendStr _).seq (Emits.appendStr _)

/-- The source's `writeUint` on a `uint64`: the canonical encoding of its big-endian magnitude. -/
theorem writeUint_emits {n : Nat} (hn : n < 2 ^ 64) : Emits (writeUint (.uint n)) (Item.str (beBytes n)).encode := by
  rw [writeUint]
  split
  · rename_i h0
    subst h0
    exact Emits.appendStr _
  · rename_i h0
    have hpos : 0 < n := Nat.pos_of_ne_zero h0
    split
    · rename_i hlt
      have hd : beBytes n = [UInt8.ofNat n] := by
        simp [beBytes, Nat.digits_of_lt 256 n h0 (by omega)]
      rw [Item.encode, if_pos (by rw [isSingleByte_beBytes]; simp [hpos, hlt]), hd]
      exact Emits.appendStr _
    · rename_i hlt
      have hlen : (beBytes n).length < 56 := by
        have : (beBytes n).length ≤ 8 := length_beBytes_le_iff.mpr (by simpa using hn)
        omega
      rw [Item.encode, if_neg (by rw [isSingleByte_beBytes]; simp [hlt]), lengthPrefix, if_pos hlen,
        putint_eq_beBytes hpos]
      exact Emits.appendStr _

theorem writeBool_emits (b : Bool) : Emits (writeBool (.bool b)) (Item.str (if b then [1] else [])).encode := by
  cases b with
  | true => exact Emits.appendStr _
  | false => exact Emits.appendStr _

/-- A big integer that is not negative is written as its big-endian magnitude. -/
theorem writeBigInt_emits {i : Int} (hi : 0 ≤ i) : Emits (writeBigInt i) (Item.str (beBytes i.toNat)).encode := by
  unfold writeBigInt
  rw [if_neg (by omega)]
  split
  · rename_i h0
    subst h0
    exact Emits.appendStr _
  · exact encodeString_emits _

theorem writeString_eq : ∀ s : List UInt8, writeString (.bytes s) = encodeString s
  | [] => rfl
  | [_] => rfl
  | _ :: _ :: _ => rfl

mutual
/-- The interface writer writes the canonical encoding of the interface's item. -/
theorem writeInterface_emits : ∀ v : Val, v.isIface = true → Emits (writeInterface v) v.ifaceItem.encode
  | .ifaceNil, _ => Emits.appendStr _
  | .ifaceBytes bs, _ => encodeString_emits bs
  | .ifaceList vs, h => by
    have hl := writeInterfaces_emits vs (by simpa [Val.isIface] using h)
    simp only [Val.ifaceItem, Item.encode]
    exact Emits.block hl
  | .uint _, h | .bool _, h | .bytes _, h | .bigInt _, h | .list _, h | .ptr _, h => by simp [Val.isIface] at h

theorem writeInterfaces_emits :
    ∀ vs : List Val, Val.isIfaceList vs = true → Emits (writeInterfaces vs) (Item.encodeList (Val.ifaceItems vs))
  | [], _ => Emits.pure
  | v :: vs, h => by
    simp only [Val.isIfaceList, Bool.and_eq_true] at h
    simp only [Val.ifaceItems, Item.encodeList_cons]
    exact (writeInterface_emits v h.1).seq (writeInterfaces_emits vs h.2)
end

theorem makeWriter_ptr {e : Ty} (he : e ≠ .bigInt) (tags : Tags) :
    makeWriter (.ptr e) tags = makePtrWriter e (makeWriter e {}) := by
  cases e <;> first | exact absurd rfl he | rfl

/-- The pointer writer: a nil pointer writes the empty value of its element type's kind, or its zero value. -/
theorem makePtrWriter_emits {e : Ty} {elemWriter : Val → EncM Unit} (he : e ≠ .bigInt) (tags : Tags)
    (hw : ∀ v, e.check v = true → v.nonneg = true → Emits (elemWriter v) (Item.encodeList (e.items {} v))) :
    ∀ v, (Ty.ptr e).check v = true → v.nonneg = true →
      Emits (makePtrWriter e elemWriter v) (Item.encodeList ((Ty.ptr e).items tags v))
  | .ptr none, _, _ => by
    cases e
    case bigInt => exact absurd rfl he
    case byteArray => exact Emits.appendStr _
    case struct => exact Emits.emptyList
    case array => exact Emits.emptyList
    all_goals exact hw _ (Ty.check_zero _) (Ty.nonneg_zero _)
  | .ptr (some v), hc, hn => by
    rw [Ty.items_ptr_some he]
    exact hw v hc hn
  | .uint _, hc, _ | .bool _, hc, _ | .bytes _, hc, _ | .bigInt _, hc, _ | .list _, hc, _ | .ifaceNil, hc, _
  | .ifaceBytes _, hc, _ | .ifaceList _, hc, _ => by simp [Ty.check] at hc

/-- The slice writer over an element writer that emits its element's items: a list of the elements, or for a
`"tail"` field the elements alone. -/
theorem makeSliceWriter_emits {e : Ty} {elemWriter : Val → EncM Unit} (ts : Tags) {vs : List Val}
    (hw : ∀ v ∈ vs, Emits (elemWriter v) (Item.encodeList (e.items {} v))) :
    Emits (makeSliceWriter elemWriter ts (.list vs))
      (Item.encodeList (if ts.tail then vs.flatMap (e.items {}) else [.list (vs.flatMap (e.items {}))])) := by
  have hf := Emits.forM hw
  rw [← Item.encodeList_flatMap] at hf
  rw [makeSliceWriter]
  split
  · exact hf
  · rw [Item.encodeList_cons, Item.encode, Item.encodeList_nil, List.append_nil]
    exact Emits.block hf

mutual
/-- Every value of its type without a negative big integer is written as the canonical encoding of its items. -/
theorem makeWriter_emits : ∀ (t : Ty) (tags : Tags) (v : Val), t.check v = true → v.nonneg = true →
    Emits (makeWriter t tags v) (Item.encodeList (t.items tags v))
  | .iface, _, v, hc, _ => by
    simpa [makeWriter, Ty.items] using writeInterface_emits v hc
  | .ptr .bigInt, _, v, hc, hn => by
    cases v
    case ptr p =>
      cases p with
      | none => exact Emits.appendStr _
      | some v =>
        cases v
        case bigInt i =>
          simp only [Val.nonneg, decide_eq_true_eq] at hn
          simpa [makeWriter, writeBigIntPtr, Ty.items] using writeBigInt_emits hn
        all_goals simp [Ty.check] at hc
    all_goals simp [Ty.check] at hc
  | .bigInt, _, v, hc, hn => by
    cases v
    case bigInt i =>
      simp only [Val.nonneg, decide_eq_true_eq] at hn
      simpa [makeWriter, writeBigIntNoPtr, Ty.items] using writeBigInt_emits hn
    all_goals simp [Ty.check] at hc
  | .uint k, _, v, hc, _ => by
    cases v
    case uint n _ =>
      have hk : 2 ^ k.bits ≤ 2 ^ 64 := Nat.pow_le_pow_right (by omega) (by cases k <;> decide)
      simp only [Ty.check, decide_eq_true_eq] at hc
      simpa [makeWriter, Ty.items] using writeUint_emits (by omega)
    all_goals simp [Ty.check] at hc
  | .bool, _, v, hc, _ => by
    cases v
    case bool b _ => simpa [makeWriter, Ty.items] using writeBool_emits b
    all_goals simp [Ty.check] at hc
  | .string, _, v, hc, _ => by
    cases v
    case bytes bs _ => simpa [makeWriter, Ty.items, writeString_eq] using encodeString_emits bs
    all_goals simp [Ty.check] at hc
  | .bytes, _, v, hc, _ => by
    cases v
    case bytes bs _ => simpa [makeWriter, Ty.items, writeBytes] using encodeString_emits bs
    all_goals simp [Ty.check] at hc
  | .byteArray _, _, v, hc, _ => by
    cases v
    case bytes bs _ => simpa [makeWriter, Ty.items, writeByteArray] using encodeString_emits bs
    all_goals simp [Ty.check] at hc
  | .slice e, tags, v, hc, hn => by
    cases v
    case list vs =>
      simp only [Ty.check, List.all_eq_true] at hc
      simp only [Val.nonneg, Val.nonnegList_eq_all, List.all_eq_true] at hn
      exact makeSliceWriter_emits tags fun v hv => makeWriter_emits e {} v (hc v hv) (hn v hv)
    all_goals simp [Ty.check] at hc
  | .array _ e, tags, v, hc, hn => by
    cases v
    case list vs =>
      simp only [Ty.check, Bool.and_eq_true, List.all_eq_true] at hc
      simp only [Val.nonneg, Val.nonnegList_eq_all, List.all_eq_true] at hn
      exact makeSliceWriter_emits tags fun v hv => makeWriter_emits e {} v (hc.2 v hv) (hn v hv)
    all_goals simp [Ty.check] at hc
  | .struct fs, _, v, hc, hn => by
    cases v
    case list vs =>
      have hf := makeStructWriter_emits fs vs hc hn
      simp only [Ty.items, Item.encodeList_cons, Item.encode, Item.encodeList_nil, List.append_nil]
      exact Emits.block hf
    all_goals simp [Ty.check] at hc
  | .ptr (.uint k), tags, v, hc, hn
  | .ptr .bool, tags, v, hc, hn
  | .ptr .string, tags, v, hc, hn
  | .ptr .bytes, tags, v, hc, hn
  | .ptr (.byteArray _), tags, v, hc, hn
  | .ptr (.slice _), tags, v, hc, hn
  | .ptr (.array _ _), tags, v, hc, hn
  | .ptr (.struct _), tags, v, hc, hn
  | .ptr (.ptr _), tags, v, hc, hn
  | .ptr .iface, tags, v, hc, hn => by
    rw [makeWriter_ptr (by simp)]
    exact makePtrWriter_emits (by simp) tags (fun v hc hn => makeWriter_emits _ {} v hc hn) v hc hn

/-- The fields not tagged `"-"` are written in order. -/
theorem makeStructWriter_emits : ∀ (fs : Fields) (vs : List Val), fs.check vs = true → Val.nonnegList vs = true →
    Emits (makeStructWriter fs (.list vs)) (Item.encodeList (fs.items vs))
  | .nil, [], _, _ => Emits.pure
  | .cons _ t tags fs, v :: vs, hc, hn => by
    simp only [Fields.check, Bool.and_eq_true] at hc
    simp only [Val.nonnegList, Bool.and_eq_true] at hn
    have hrest := makeStructWriter_emits fs vs hc.2 hn.2
    simp only [makeStructWriter, Fields.items, Item.encodeList_append]
    cases tags.ignored with
    | true => simpa using hrest
    | false => simpa using (makeWriter_emits t tags v hc.1 hn.1).seq hrest
  | .nil, _ :: _, hc, _ | .cons .., [], hc, _ => by simp [Fields.check] at hc
end

/-- `EncodeToBytes` of a value of a well-formed type without a negative big integer is the canonical encoding of
its items. -/
theorem encodeToBytes_eq {t : Ty} {v : Val} (ht : t.typeError = none) (hc : t.check v = true)
    (hn : v.nonneg = true) : encodeToBytes t v = .ok (Item.encodeList (t.items {} v)) := by
  have hwf : Encbuf.empty.Wf := fun _ hm => absurd hm (List.not_mem_nil)
  obtain ⟨w', hx, hw⟩ := makeWriter_emits t {} v hc hn Encbuf.empty hwf
  unfold encodeToBytes
  rw [ht]
  simp only [hx, hw.render]
  rfl

end Etherzero.Rlp
