import Mathlib
import Etherzero.Lib.BigEndian
import Etherzero.Lib.StateExcept
import Etherzero.Rlp.Encode
import Etherzero.Rlp.Item

/-!
# The encoder's buffer renders the canonical encoding

`Writes w w' out` says that going from buffer `w` to `w'` appended string data and list headers whose rendering by
`toBytes` is `out`, after what `w` rendered already. It composes, `appendStr` and a closed list satisfy it, and so the
writer of every value writes the canonical encoding of its items (`makeWriter_writes`). A buffer renders its open
headers with their provisional size; closing a header changes only its own bytes (`toBytesFrom_append_cons`), which
is what makes the list case go through.
-/

namespace Etherzero.Rlp

/-- The length prefix the encoder writes is the canonical one. -/
theorem putint_eq_beBytes {n : Nat} (h : 0 < n) : putint n = beBytes n := by
  unfold putint
  split
  · rename_i hlt
    simp [beBytes, Nat.digits_of_lt 256 n (by omega) hlt]
  · rfl

theorem puthead_eq_lengthPrefix (smalltag largetag : UInt8) (size : Nat) :
    puthead smalltag largetag size = lengthPrefix smalltag largetag size := by
  unfold puthead lengthPrefix
  split
  · rfl
  · rw [putint_eq_beBytes (by omega)]

@[simp] theorem length_lengthPrefix (short long : UInt8) (n : Nat) :
    (lengthPrefix short long n).length = headsize n := by
  unfold lengthPrefix headsize intsize
  split
  · rfl
  · have := length_beBytes_pos (n := n) (by omega)
    simp only [List.length_cons]
    omega

namespace EncbufAux

/-- The rendering of `toBytesFrom` that stops at string position `e` instead of the end of the string data. -/
def seg (str : List UInt8) : List Listhead → Nat → Nat → List UInt8
  | [], p, e => (str.drop p).take (e - p)
  | head :: heads, p, e => (str.drop p).take (head.offset - p) ++ head.encode ++ seg str heads head.offset e

/-- The rendering splits at any header: what comes before it does not depend on its size. -/
theorem toBytesFrom_append_cons (str : List UInt8) (pre post : List Listhead) (h : Listhead) (p : Nat) :
    Encbuf.toBytesFrom str (pre ++ h :: post) p =
      seg str pre p h.offset ++ h.encode ++ Encbuf.toBytesFrom str post h.offset := by
  induction pre generalizing p with
  | nil => rfl
  | cons h' pre ih =>
    simp only [List.cons_append, Encbuf.toBytesFrom, seg, ih, List.append_assoc]

/-- Rendering up to the end of the string data is rendering it all. -/
theorem seg_length (str : List UInt8) (heads : List Listhead) (p : Nat)
    (hp : p ≤ str.length) (hh : ∀ h ∈ heads, h.offset ≤ str.length) :
    seg str heads p str.length = Encbuf.toBytesFrom str heads p := by
  induction heads generalizing p with
  | nil =>
    simp only [seg, Encbuf.toBytesFrom]
    exact List.take_of_length_le (by simp)
  | cons h heads ih =>
    simp only [seg, Encbuf.toBytesFrom]
    rw [ih h.offset (hh h (by simp)) (fun h' hm => hh h' (by simp [hm]))]

/-- Appending string data after every header appends it to the rendering. -/
theorem toBytesFrom_append_str (a b : List UInt8) (heads : List Listhead) (p : Nat)
    (hp : p ≤ a.length) (hh : ∀ h ∈ heads, h.offset ≤ a.length) :
    Encbuf.toBytesFrom (a ++ b) heads p = Encbuf.toBytesFrom a heads p ++ b := by
  induction heads generalizing p with
  | nil => simp only [Encbuf.toBytesFrom, List.drop_append_of_le_length hp]
  | cons h heads ih =>
    have hoff := hh h (by simp)
    simp only [Encbuf.toBytesFrom]
    rw [ih h.offset hoff (fun h' hm => hh h' (by simp [hm])), List.drop_append_of_le_length hp,
      List.take_append_of_le_length (by simp; omega)]
    simp

/-- A rendering that stops inside the old string data does not see what was appended. -/
theorem seg_append_str (a b : List UInt8) (heads : List Listhead) (p : Nat)
    (hp : p ≤ a.length) (hh : ∀ h ∈ heads, h.offset ≤ a.length) :
    seg (a ++ b) heads p a.length = Encbuf.toBytesFrom a heads p := by
  induction heads generalizing p with
  | nil =>
    simp only [seg, Encbuf.toBytesFrom, List.drop_append_of_le_length hp]
    rw [List.take_append_of_le_length (by simp)]
    exact List.take_of_length_le (by simp)
  | cons h heads ih =>
    have hoff := hh h (by simp)
    simp only [seg, Encbuf.toBytesFrom]
    rw [ih h.offset hoff (fun h' hm => hh h' (by simp [hm])), List.drop_append_of_le_length hp,
      List.take_append_of_le_length (by simp; omega)]

end EncbufAux

open EncbufAux

/-- Every header of the buffer sits inside its string data. -/
def Encbuf.Wf (w : Encbuf) : Prop := ∀ h ∈ w.lheads, h.offset ≤ w.str.length

/-- From `w` to `w'` the writers appended string data `s` and headers, all placed in `s`, and the rendering grew by
`out`; `lhsize` grew by the bytes of `out` that are headers. -/
structure Writes (w w' : Encbuf) (out : List UInt8) : Prop where
  str : ∃ s, w'.str = w.str ++ s ∧ w'.lhsize + s.length = w.lhsize + out.length
  lheads : ∃ hs, w'.lheads = w.lheads ++ hs ∧ ∀ h ∈ hs, w.str.length ≤ h.offset ∧ h.offset ≤ w'.str.length
  render : w'.toBytes = w.toBytes ++ out

theorem Writes.wf {w w' : Encbuf} {out : List UInt8} (h : Writes w w' out) (hw : w.Wf) : w'.Wf := by
  obtain ⟨s, hs, -⟩ := h.str
  obtain ⟨hds, hl, hb⟩ := h.lheads
  intro x hx
  rw [hl, List.mem_append] at hx
  rcases hx with hx | hx
  · have := hw x hx
    rw [hs, List.length_append]
    omega
  · exact (hb x hx).2

theorem Writes.refl (w : Encbuf) : Writes w w [] :=
  ⟨⟨[], by simp, by simp⟩, ⟨[], by simp, by simp⟩, by simp⟩

theorem Writes.trans {w w₁ w₂ : Encbuf} {o₁ o₂ : List UInt8} (h₁ : Writes w w₁ o₁) (h₂ : Writes w₁ w₂ o₂) :
    Writes w w₂ (o₁ ++ o₂) := by
  obtain ⟨s₁, hs₁, hz₁⟩ := h₁.str
  obtain ⟨s₂, hs₂, hz₂⟩ := h₂.str
  obtain ⟨hd₁, hl₁, hb₁⟩ := h₁.lheads
  obtain ⟨hd₂, hl₂, hb₂⟩ := h₂.lheads
  refine ⟨⟨s₁ ++ s₂, by rw [hs₂, hs₁, List.append_assoc], ?_⟩, ⟨hd₁ ++ hd₂, by rw [hl₂, hl₁, List.append_assoc], ?_⟩,
    by rw [h₂.render, h₁.render, List.append_assoc]⟩
  · simp only [List.length_append]
    omega
  · intro h hm
    have hlen₁ : w₁.str.length = w.str.length + s₁.length := by rw [hs₁, List.length_append]
    have hlen₂ : w₂.str.length = w₁.str.length + s₂.length := by rw [hs₂, List.length_append]
    rcases List.mem_append.mp hm with hm | hm
    · have := hb₁ h hm
      omega
    · have := hb₂ h hm
      omega

theorem appendStr_writes (w : Encbuf) (hw : w.Wf) (bs : List UInt8) :
    exec (appendStr bs) w = (.ok (), { w with str := w.str ++ bs }) ∧
      Writes w { w with str := w.str ++ bs } bs := by
  refine ⟨rfl, ⟨⟨bs, rfl, rfl⟩, ⟨[], by simp, by simp⟩, ?_⟩⟩
  exact toBytesFrom_append_str w.str bs w.lheads 0 (Nat.zero_le _) hw

/-- The buffer right after `list`: a header at the end of the string data, holding `lhsize` for now. -/
def Encbuf.opened (w : Encbuf) : Encbuf := { w with lheads := w.lheads ++ [⟨w.str.length, w.lhsize⟩] }

theorem exec_list (w : Encbuf) : exec Encbuf.list w = (.ok w.lheads.length, w.opened) := rfl

theorem Encbuf.opened_wf {w : Encbuf} (hw : w.Wf) : w.opened.Wf := by
  intro h hm
  simp only [Encbuf.opened, List.mem_append, List.mem_singleton] at hm
  rcases hm with hm | rfl
  · exact hw h hm
  · exact Nat.le_refl _

theorem Encbuf.toBytes_opened {w : Encbuf} (hw : w.Wf) :
    w.opened.toBytes = w.toBytes ++ (⟨w.str.length, w.lhsize⟩ : Listhead).encode := by
  simp only [Encbuf.toBytes, Encbuf.opened]
  rw [toBytesFrom_append_cons, seg_length w.str w.lheads 0 (Nat.zero_le _) hw]
  simp [Encbuf.toBytesFrom]

theorem exec_listEnd {w : Encbuf} {idx : Nat} {lh : Listhead} (h : w.lheads[idx]? = some lh) :
    exec (Encbuf.listEnd idx) w = (.ok (), { w with
      lheads := w.lheads.set idx { lh with size := w.size - lh.offset - lh.size },
      lhsize := w.lhsize + headsize (w.size - lh.offset - lh.size) }) := by
  simp only [Encbuf.listEnd, exec_modify, h]

/-- A list written between `list` and `listEnd`: its header, closed with the size of what was written in it,
renders as the canonical list prefix of that payload. -/
theorem listEnd_writes {w w₂ : Encbuf} {E : List UInt8} (hw : w.Wf) (hwr : Writes w.opened w₂ E) :
    ∃ w₃, exec (Encbuf.listEnd w.lheads.length) w₂ = (.ok (), w₃) ∧ Writes w w₃ (lengthPrefix 0xC0 0xF7 E.length ++ E) := by
  have hr := hwr.render
  obtain ⟨s, hs, hz⟩ := hwr.str
  obtain ⟨hds, hl, hb⟩ := hwr.lheads
  simp only [Encbuf.opened] at hs hz hl hb
  have hl' : w₂.lheads = w.lheads ++ ⟨w.str.length, w.lhsize⟩ :: hds := by
    simp [hl]
  have hget : w₂.lheads[w.lheads.length]? = some ⟨w.str.length, w.lhsize⟩ := by
    rw [hl', List.getElem?_append_right (Nat.le_refl _)]
    simp
  have hsize : w₂.size - w.str.length - w.lhsize = E.length := by
    simp only [Encbuf.size, hs, List.length_append]
    omega
  have hset : w₂.lheads.set w.lheads.length ⟨w.str.length, E.length⟩ =
      w.lheads ++ ⟨w.str.length, E.length⟩ :: hds := by
    rw [hl', List.set_append_right _ _ (Nat.le_refl _)]
    simp
  rw [exec_listEnd hget]
  simp only [hsize]
  have hopen := Encbuf.toBytes_opened hw
  have hhd : ∀ h ∈ w.lheads, h.offset ≤ w.str.length := hw
  refine ⟨_, rfl, ⟨s, hs, ?_⟩, ⟨⟨w.str.length, E.length⟩ :: hds, hset, ?_⟩, ?_⟩
  · simp only [List.length_append, length_lengthPrefix]
    omega
  · intro h hm
    simp only [List.mem_cons] at hm
    rcases hm with rfl | hm
    · simp [hs]
    · exact hb h hm
  · simp only [Encbuf.toBytes, hset] at hr hopen ⊢
    rw [toBytesFrom_append_cons, hs, seg_append_str w.str s w.lheads 0 (Nat.zero_le _) hhd]
    rw [hl', toBytesFrom_append_cons, hs, seg_append_str w.str s w.lheads 0 (Nat.zero_le _) hhd, hopen] at hr
    simp only [List.append_assoc, List.append_cancel_left_eq] at hr ⊢
    rw [hr, Listhead.encode, puthead_eq_lengthPrefix]

end Etherzero.Rlp
