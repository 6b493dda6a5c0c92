import Mathlib
import Etherzero.Swarm.Bmt

/-!
# What Write starts, section by section

For a pool of `2^(k+1)` segments the tree has depth `k + 1` and `2^k` leaves, one for each double section. `Write`
keeps the tree's cursor, offset and open section in step with the bytes written. The cursor's full sections and
`offset` bytes of the open one are all the bytes, and the open section is the cursor's section of them, padded with
zeros. Each full section goes to `writeSection` once, in order, with its bytes.
-/

namespace Etherzero.Bmt

/-! ## The shape of the tree -/

/-- The depth loop from `c = 2^(j+1)`: it stops at the `k` with `n = 2^(k+1)`. -/
theorem calculateDepthFor_loop_two_pow (k : Nat) :
    ∀ fuel j, j ≤ k → k ≤ j + fuel → calculateDepthFor.loop (2 ^ (k + 1)) fuel (2 ^ (j + 1)) j = k + 1 := by
  intro fuel
  induction fuel with
  | zero =>
    intro j hj hf
    rw [calculateDepthFor.loop]
    omega
  | succ fuel ih =>
    intro j hj hf
    rw [calculateDepthFor.loop]
    by_cases hjk : j < k
    · have hlt : 2 ^ (j + 1) < 2 ^ (k + 1) := Nat.pow_lt_pow_right (by norm_num) (by omega)
      rw [if_pos hlt, ← Nat.pow_succ]
      exact ih (j + 1) (by omega) (by omega)
    · have hge : ¬ 2 ^ (j + 1) < 2 ^ (k + 1) := fun h =>
        hjk (by have := (Nat.pow_lt_pow_iff_right (by norm_num : 1 < 2)).mp h; omega)
      rw [if_neg hge]
      omega

@[simp]
theorem calculateDepthFor_two_pow (k : Nat) : calculateDepthFor (2 ^ (k + 1)) = k + 1 :=
  calculateDepthFor_loop_two_pow k (2 ^ (k + 1)) 0 (Nat.zero_le k)
    (by have := Nat.lt_two_pow_self (n := k + 1); omega)

/-- `n + 1` more levels leave `count * 2^n` nodes on the last one. -/
theorem leafCount_loop_succ (n : Nat) : ∀ prevlevel count,
    newTree.leafCount.loop (n + 1) prevlevel count = count * 2 ^ n := by
  induction n with
  | zero => intro _ _; simp [newTree.leafCount.loop]
  | succ n ih =>
    intro _ count
    rw [newTree.leafCount.loop, ih, Nat.pow_succ]
    ring

@[simp]
theorem leafCount_succ (k : Nat) : newTree.leafCount (k + 1) = 2 ^ k := by
  cases k with
  | zero => rfl
  | succ k =>
    rw [newTree.leafCount, Nat.add_sub_cancel, leafCount_loop_succ, ← Nat.pow_succ']

/-- A pool of `2^(k+1)` segments: its depth and leaves, and its size in double sections. -/
theorem TreePool.leaves_of_count {p : TreePool} {k : Nat} (hk : p.segmentCount = 2 ^ (k + 1)) :
    newTree.leafCount p.depth = 2 ^ k ∧ p.size = 2 ^ k * (2 * p.segmentSize) := by
  refine ⟨by rw [TreePool.depth, hk, calculateDepthFor_two_pow, leafCount_succ], ?_⟩
  rw [TreePool.size, hk, Nat.pow_succ]
  ring

/-! ## Sections of the data -/

/-- Section `j` of `data` in sections of `s` bytes, padded with zeros: what `writeSection` is to hash for it. -/
def chunkSection (s : Nat) (data : List UInt8) (j : Nat) : List UInt8 := newSection s (data.drop (j * s))

/-- The call `Write` starts for the full section `j`. -/
def fullCall (s : Nat) (data : List UInt8) (j : Nat) : SectionWrite := ⟨j, chunkSection s data j, true, false⟩

theorem copyAt_append_replicate (D b : List UInt8) (r : Nat) :
    copyAt (D ++ List.replicate r 0) D.length b = D ++ b.take r ++ List.replicate (r - b.length) 0 := by
  simp [copyAt, List.drop_append, List.drop_replicate]

theorem newSection_eq (s : Nat) (X : List UInt8) :
    newSection s X = X.take s ++ List.replicate (s - X.length) 0 := by
  simp [newSection, copyAt, List.drop_replicate]

@[simp]
theorem length_newSection (s : Nat) (X : List UInt8) : (newSection s X).length = s := by
  rw [newSection_eq]
  simp only [List.length_append, List.length_take, List.length_replicate]
  omega

/-- A full section does not change as bytes come after it. -/
theorem chunkSection_append {s : Nat} {data : List UInt8} {j : Nat} (h : (j + 1) * s ≤ data.length)
    (b : List UInt8) : chunkSection s (data ++ b) j = chunkSection s data j := by
  have hj : j * s ≤ data.length := le_trans (Nat.mul_le_mul_right s (Nat.le_succ j)) h
  have hlen : s ≤ (data.drop (j * s)).length := by rw [List.length_drop, Nat.succ_mul] at *; omega
  rw [chunkSection, chunkSection, List.drop_append_of_le_length hj, newSection_eq, newSection_eq,
    List.take_append_of_le_length hlen]
  simp only [List.length_append]
  congr 2
  omega

/-- Copying `b` to the open section at its offset gives the section of the bytes with `b` after them. -/
theorem copyAt_chunkSection {s : Nat} {data : List UInt8} {c o : Nat} (hlen : data.length = c * s + o)
    (ho : o ≤ s) (b : List UInt8) : copyAt (chunkSection s data c) o b = chunkSection s (data ++ b) c := by
  have hD : (data.drop (c * s)).length = o := by rw [List.length_drop]; omega
  rw [chunkSection, chunkSection, List.drop_append_of_le_length (by omega), newSection_eq, newSection_eq,
    List.take_of_length_le (by omega : (data.drop (c * s)).length ≤ s), hD]
  conv_lhs => rw [← hD]
  rw [copyAt_append_replicate, List.take_append, List.take_of_length_le (by omega : (data.drop (c * s)).length ≤ s),
    List.length_append, hD, Nat.sub_sub, List.append_assoc]

/-! ## The loop of Write -/

section Loop

variable {s : Nat} (data b : List UInt8)

/-- The loop of `Write(b)` after the bytes `data`, with section `cursor + 1` starting at `smax` in `b`: it starts the
calls for the sections it fills, and stops at the section where `b` ends. -/
theorem writeLoop_spec (hs : 0 < s) :
    ∀ fuel (t : Tree) smax, b.length ≤ smax + fuel → data.length + smax = (t.cursor + 1) * s →
      t.sec = chunkSection s (data ++ b) t.cursor →
      ∃ n, writeLoop s b fuel t smax =
          ({ t with cursor := t.cursor + n, sec := chunkSection s (data ++ b) (t.cursor + n) }, smax + n * s,
            (List.range' t.cursor n).map (fullCall s (data ++ b))) ∧
        b.length ≤ smax + n * s ∧ (0 < n → smax + n * s < b.length + s) := by
  intro fuel
  induction fuel with
  | zero =>
    intro t smax hfuel _ hsec
    refine ⟨0, ?_, by omega, by omega⟩
    rw [writeLoop]
    cases t
    simp_all
  | succ fuel ih =>
    intro t smax hfuel hrel hsec
    rw [writeLoop]
    by_cases hlt : smax < b.length
    · rw [if_pos hlt]
      -- the next section starts at `smax` in `b`
      have hnext : newSection s (b.drop smax) = chunkSection s (data ++ b) (t.cursor + 1) := by
        rw [chunkSection, ← hrel, List.drop_length_add_append]
      obtain ⟨n, heq, hle, hlt'⟩ := ih { t with sec := newSection s (b.drop smax), cursor := t.cursor + 1 }
        (smax + s) (by omega) (by simp only; rw [Nat.succ_mul (t.cursor + 1)]; omega) hnext
      refine ⟨n + 1, ?_, by rw [Nat.succ_mul]; omega, fun _ => ?_⟩
      · rw [heq]
        simp only [List.range'_succ, List.map_cons, fullCall, ← hsec]
        refine Prod.ext ?_ (Prod.ext (by simp only; ring) rfl)
        simp only [Nat.add_assoc, Nat.add_comm 1 n]
      · rcases Nat.eq_zero_or_pos n with rfl | hn
        · omega
        · have := hlt' hn
          rw [Nat.succ_mul]
          omega
    · rw [if_neg hlt]
      refine ⟨0, ?_, by omega, by omega⟩
      cases t
      simp_all

end Loop

/-! ## Write -/

/-- A tree that has taken the bytes `data`: `cursor` full sections and `offset` bytes of the open section, which holds
the cursor's section of `data`; an offset of 0 only before the first byte. -/
def Tree.Holds (s : Nat) (data : List UInt8) (t : Tree) : Prop :=
  t.cursor * s + t.offset = data.length ∧ t.offset ≤ s ∧ (t.offset = 0 → data = []) ∧
    t.sec = chunkSection s data t.cursor

@[simp] theorem Tree.withSpan_cursor (p : TreePool) (span : List UInt8) : (Tree.withSpan p span).cursor = 0 := rfl

@[simp] theorem Tree.withSpan_span (p : TreePool) (span : List UInt8) : (Tree.withSpan p span).span = span := rfl

theorem Tree.holds_withSpan (p : TreePool) (span : List UInt8) :
    (Tree.withSpan p span).Holds (2 * p.segmentSize) [] := by
  refine ⟨by simp [Tree.withSpan], Nat.zero_le _, fun _ => rfl, ?_⟩
  simp [Tree.withSpan, chunkSection, newSection_eq]

/-- A tree that has taken bytes has its cursor on the section of the last of them. -/
theorem Tree.Holds.cursor_eq {s : Nat} {data : List UInt8} {t : Tree} (h : t.Holds s data) (hd : data ≠ []) :
    t.cursor = (data.length - 1) / s := by
  obtain ⟨hlen, hle, hpos, -⟩ := h
  have ho : 0 < t.offset := Nat.pos_of_ne_zero fun h0 => hd (hpos h0)
  have hs : 0 < s := by omega
  rw [← hlen, show t.cursor * s + t.offset - 1 = (t.offset - 1) + s * t.cursor by rw [Nat.mul_comm]; omega,
    Nat.add_mul_div_left _ _ hs, Nat.div_eq_of_lt (by omega), Nat.zero_add]

/-- The guard of `Write` at the end of a section does not stop bytes that still fit in the chunk. -/
theorem Tree.Holds.cursor_ne {p : TreePool} {data b : List UInt8} {t : Tree}
    (h : t.Holds (2 * p.segmentSize) data) (hs : 0 < p.segmentSize) (hb : b ≠ [])
    (hsize : data.length + b.length ≤ p.size) (hfull : ¬ t.offset < 2 * p.segmentSize) :
    t.cursor ≠ p.segmentCount * 2 := by
  intro hc
  obtain ⟨hlen, hle, -, -⟩ := h
  have hb' : 0 < b.length := List.length_pos_iff.mpr hb
  have ho : t.offset = 2 * p.segmentSize := by omega
  rw [← hlen, hc, ho, TreePool.size] at hsize
  nlinarith

/-- The end of `Write(b)` from `smax`, with section `cursor + 1` starting at `smax` in `b` and `b` going past it: the
tree takes all of `b`, and the calls start for the sections it fills. -/
theorem writeRest_spec {s : Nat} {data b : List UInt8} {t : Tree} {smax : Nat} (hs : 0 < s)
    (hrel : data.length + smax = (t.cursor + 1) * s) (hsec : t.sec = chunkSection s (data ++ b) t.cursor)
    (hlt : smax < b.length) :
    ∃ t', writeRest s b t smax = (t', (List.range' t.cursor (t'.cursor - t.cursor)).map (fullCall s (data ++ b)),
        b.length) ∧
      t'.Holds s (data ++ b) ∧ t.cursor ≤ t'.cursor ∧ t'.span = t.span := by
  obtain ⟨n, heq, hle, hlt'⟩ := writeLoop_spec data b hs b.length t smax (by omega) hrel hsec
  have hn : 0 < n := by
    rcases Nat.eq_zero_or_pos n with rfl | hn
    · omega
    · exact hn
  have hend := hlt' hn
  refine ⟨{ t with
      cursor := t.cursor + n
      sec := chunkSection s (data ++ b) (t.cursor + n)
      offset := b.length + s - (smax + n * s) },
    ?_, ⟨?_, by simp only; omega, by simp only; omega, rfl⟩, by simp only; omega, rfl⟩
  · rw [writeRest, heq]
    simp
  · simp only [List.length_append, Nat.add_mul]
    rw [Nat.succ_mul] at hrel
    omega

variable {p : TreePool} {data b : List UInt8} {t : Tree}

/-- `Write(b)` of bytes that still fit: it takes them all, and starts the calls for the sections it fills. -/
theorem write_spec (hs : 0 < p.segmentSize) (h : t.Holds (2 * p.segmentSize) data) (hb : b ≠ [])
    (hsize : data.length + b.length ≤ p.size) :
    ∃ t', write p t b = (t', (List.range' t.cursor (t'.cursor - t.cursor)).map
        (fullCall (2 * p.segmentSize) (data ++ b)), b.length) ∧
      t'.Holds (2 * p.segmentSize) (data ++ b) ∧ t.cursor ≤ t'.cursor ∧ t'.span = t.span := by
  have hb' : 0 < b.length := List.length_pos_iff.mpr hb
  have hs2 : 0 < 2 * p.segmentSize := by omega
  obtain ⟨hlen, hle, hpos, hsec⟩ := h
  have hguard : ¬ (b.length = 0 ∨ b.length > p.size) := by omega
  rw [write, if_neg hguard]
  simp only
  by_cases hopen : t.offset < 2 * p.segmentSize
  · rw [if_pos hopen, if_neg (show ¬ 2 * p.segmentSize - t.offset = 0 by omega)]
    have hcopy := copyAt_chunkSection hlen.symm hle b
    by_cases hfit : b.length ≤ 2 * p.segmentSize - t.offset
    · -- the bytes stay in the open section
      rw [if_pos hfit]
      refine ⟨{ t with offset := t.offset + b.length, sec := copyAt t.sec t.offset b }, by simp, ?_, le_refl _, rfl⟩
      refine ⟨by simp only [List.length_append]; omega, by simp only; omega, by simp only; omega, ?_⟩
      rw [← hcopy, hsec]
    · rw [if_neg hfit]
      exact writeRest_spec hs2 (by simp only; rw [Nat.succ_mul t.cursor]; omega) (by simp only [hsec, hcopy])
        (by omega)
  · rw [if_neg hopen, if_neg (Tree.Holds.cursor_ne ⟨hlen, hle, hpos, hsec⟩ hs hb hsize hopen)]
    -- the open section is full: it keeps its bytes
    have hkeep : t.sec = chunkSection (2 * p.segmentSize) (data ++ b) t.cursor := by
      rw [hsec, chunkSection_append (by rw [Nat.succ_mul t.cursor]; omega)]
    exact writeRest_spec hs2 (by rw [Nat.succ_mul t.cursor]; omega) hkeep (by omega)

/-- Writes one after another of bytes that fit: the tree takes them all, and every full section goes to
`writeSection` once, in order, with its bytes. -/
theorem writeAll_spec (hs : 0 < p.segmentSize) :
    ∀ (bs : List (List UInt8)) data (t : Tree), t.Holds (2 * p.segmentSize) data → (∀ b ∈ bs, b ≠ []) →
      data.length + bs.flatten.length ≤ p.size →
      (writeAll p t bs).1.Holds (2 * p.segmentSize) (data ++ bs.flatten) ∧ (writeAll p t bs).1.span = t.span ∧
        t.cursor ≤ (writeAll p t bs).1.cursor ∧
        (writeAll p t bs).2 = (List.range' t.cursor ((writeAll p t bs).1.cursor - t.cursor)).map
          (fullCall (2 * p.segmentSize) (data ++ bs.flatten)) := by
  intro bs
  induction bs with
  | nil =>
    intro data t h _ _
    simpa [writeAll] using h
  | cons b bs ih =>
    intro data t h hne hsize
    simp only [List.flatten_cons, List.length_append] at hsize
    obtain ⟨t1, hw, h1, hc1, hspan1⟩ := write_spec hs h (hne b List.mem_cons_self) (by omega)
    obtain ⟨hf, hspan, hc, hcalls⟩ := ih (data ++ b) t1 h1 (fun b' hb' => hne b' (List.mem_cons_of_mem b hb'))
      (by simp only [List.length_append]; omega)
    simp only [writeAll, hw, List.flatten_cons, ← List.append_assoc]
    refine ⟨hf, hspan.trans hspan1, le_trans hc1 hc, ?_⟩
    rw [hcalls]
    -- the calls of the first write are for sections it filled, which the later bytes leave as they are
    have hfirst : (List.range' t.cursor (t1.cursor - t.cursor)).map (fullCall (2 * p.segmentSize) (data ++ b)) =
        (List.range' t.cursor (t1.cursor - t.cursor)).map
          (fullCall (2 * p.segmentSize) (data ++ b ++ bs.flatten)) := by
      refine List.map_congr_left fun j hj => ?_
      have hj' : j + 1 ≤ t1.cursor := by rw [List.mem_range'_1] at hj; omega
      have hfill : (j + 1) * (2 * p.segmentSize) ≤ (data ++ b).length := by
        have := h1.1
        have := Nat.mul_le_mul_right (2 * p.segmentSize) hj'
        omega
      simp only [fullCall, chunkSection_append hfill]
    obtain ⟨d, hd⟩ := Nat.exists_eq_add_of_le hc1
    rw [hfirst, ← List.map_append, hd, Nat.add_sub_cancel_left, List.range'_append_1]
    congr 2
    omega

end Etherzero.Bmt
