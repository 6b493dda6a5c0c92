import Mathlib
import Etherzero.Lib.Bitset
import Etherzero.Vm.Analysis

/-!
# What the JUMPDEST bitmap marks

`bitAt` reads the bitmap as a set of positions. Each write marks the positions it is for and no other (`set_bitAt`,
`set8_bitAt`), so the two inner loops mark exactly the data of one `PUSH`, and the main loop, step by step, exactly
the data of the instructions of the linear decoding from the position it starts at (`IsPushDataFrom`). Every write
falls inside the bitmap: a `PUSH` starts before the end of the code and has at most 32 bytes of data, which the 4
spare bytes cover.
-/

namespace Etherzero.Vm

/-- The size of the immediate data of an opcode: n for `PUSHn`, none for the others. -/
def pushSize (op : UInt8) : Nat := if PUSH1 ≤ op ∧ op ≤ PUSH32 then (op - PUSH1 + 1).toNat else 0

/-- `p` is the immediate data of a `PUSH` in the linear decoding of `code` from `pc`: of the instruction at `pc`, or of
one after it. -/
inductive IsPushDataFrom (code : List UInt8) : Nat → Nat → Prop where
  | here {pc p : Nat} (h : pc < code.length) (hlo : pc < p) (hhi : p ≤ pc + pushSize (code.getD pc 0)) :
      IsPushDataFrom code pc p
  | later {pc p : Nat} (h : pc < code.length) (hnext : IsPushDataFrom code (pc + 1 + pushSize (code.getD pc 0)) p) :
      IsPushDataFrom code pc p

/-- `p` is the immediate data of a `PUSH` in the linear decoding of `code` from position 0. -/
def IsPushData (code : List UInt8) (p : Nat) : Prop := IsPushDataFrom code 0 p

theorem pushSize_le (op : UInt8) : pushSize op ≤ 32 := by
  unfold pushSize
  split
  · rename_i h
    obtain ⟨h₁, h₂⟩ := h
    have h₁' := UInt8.le_iff_toNat_le.mp h₁
    have h₂' := UInt8.le_iff_toNat_le.mp h₂
    simp only [PUSH1, PUSH32, UInt8.reduceToNat] at h₁' h₂'
    rw [UInt8.toNat_add, UInt8.toNat_sub_of_le _ _ h₁]
    simp only [PUSH1, UInt8.reduceToNat]
    omega
  · exact Nat.zero_le _

/-- One step of the decoding: data of the instruction at `pc`, or of the rest. -/
theorem isPushDataFrom_iff {code : List UInt8} {pc p : Nat} :
    IsPushDataFrom code pc p ↔ pc < code.length ∧
      ((pc < p ∧ p ≤ pc + pushSize (code.getD pc 0)) ∨ IsPushDataFrom code (pc + 1 + pushSize (code.getD pc 0)) p) := by
  constructor
  · rintro (⟨h, hlo, hhi⟩ | ⟨h, hnext⟩)
    · exact ⟨h, .inl ⟨hlo, hhi⟩⟩
    · exact ⟨h, .inr hnext⟩
  · rintro ⟨h, ⟨hlo, hhi⟩ | hnext⟩
    · exact .here h hlo hhi
    · exact .later h hnext

namespace Bitvec

open Etherzero.Bitset (testBit_or getD_modify_or)

/-- Whether the bitmap marks the byte at `p` as data. -/
def bitAt (bits : Bitvec) (p : Nat) : Bool := (bits.getD (p / 8) 0).toNat.testBit (7 - p % 8)

/-! ## The masks of one byte -/

theorem testBit_bit {k j : Nat} (hk : k < 8) (hj : j < 8) :
    ((0x80 : UInt8) >>> UInt8.ofNat k).toNat.testBit j = (j == 7 - k) := by
  have h : ∀ k j : Fin 8, ((0x80 : UInt8) >>> UInt8.ofNat k).toNat.testBit j = (j.val == 7 - k.val) := by decide
  exact h ⟨k, hk⟩ ⟨j, hj⟩

theorem testBit_high {k j : Nat} (hk : k < 8) (hj : j < 8) :
    ((0xFF : UInt8) >>> UInt8.ofNat k).toNat.testBit j = decide (j < 8 - k) := by
  have h : ∀ k j : Fin 8, ((0xFF : UInt8) >>> UInt8.ofNat k).toNat.testBit j = decide (j.val < 8 - k.val) := by decide
  exact h ⟨k, hk⟩ ⟨j, hj⟩

theorem testBit_low {k j : Nat} (hk : k < 8) (hj : j < 8) :
    (~~~((0xFF : UInt8) >>> UInt8.ofNat k)).toNat.testBit j = decide (8 - k ≤ j) := by
  have h : ∀ k j : Fin 8, (~~~((0xFF : UInt8) >>> UInt8.ofNat k)).toNat.testBit j = decide (8 - k.val ≤ j.val) := by
    decide
  exact h ⟨k, hk⟩ ⟨j, hj⟩

theorem bit_toNat {k : Nat} (hk : k < 8) : ((0x80 : UInt8) >>> UInt8.ofNat k).toNat = 2 ^ (7 - k) := by
  have h : ∀ k : Fin 8, ((0x80 : UInt8) >>> UInt8.ofNat k).toNat = 2 ^ (7 - k.val) := by decide
  exact h ⟨k, hk⟩

/-! ## Writes -/

theorem orAt_eq {bits : Bitvec} {i : Nat} (m : UInt8) (hi : i < bits.length) :
    bits.orAt i m = some (bits.modify i (· ||| m)) :=
  if_pos hi

/-- `set` marks its position and no other. -/
theorem set_bitAt {bits : Bitvec} {pos : Nat} (hfit : pos / 8 < bits.length) :
    ∃ bits', bits.set pos = some bits' ∧ bits'.length = bits.length ∧
      ∀ p, bitAt bits' p = (bitAt bits p || decide (p = pos)) := by
  refine ⟨_, orAt_eq _ hfit, List.length_modify .., fun p => ?_⟩
  have hp : p % 8 < 8 := Nat.mod_lt _ (by decide)
  have hpos : pos % 8 < 8 := Nat.mod_lt _ (by decide)
  rw [bitAt, bitAt, getD_modify_or _ hfit]
  split_ifs with hblock
  · rw [testBit_or, testBit_bit hpos (by omega)]
    congr 1
    rw [Bool.eq_iff_iff, beq_iff_eq, decide_eq_true_eq]
    omega
  · simp only [Bool.eq_self_or, decide_eq_true_eq]
    omega

/-- `set8` marks the eight positions from its own and no other. -/
theorem set8_bitAt {bits : Bitvec} {pos : Nat} (hfit : pos / 8 + 1 < bits.length) :
    ∃ bits', bits.set8 pos = some bits' ∧ bits'.length = bits.length ∧
      ∀ p, bitAt bits' p = (bitAt bits p || decide (pos ≤ p ∧ p < pos + 8)) := by
  have hfit₁ : pos / 8 < bits.length := by omega
  have hlen₁ : (bits.modify (pos / 8) (· ||| (0xFF >>> UInt8.ofNat (pos % 8)))).length = bits.length :=
    List.length_modify ..
  refine ⟨(bits.modify (pos / 8) (· ||| (0xFF >>> UInt8.ofNat (pos % 8)))).modify (pos / 8 + 1)
    (· ||| ~~~(0xFF >>> UInt8.ofNat (pos % 8))), ?_, by simp only [List.length_modify], fun p => ?_⟩
  · rw [set8, orAt_eq _ hfit₁]
    exact orAt_eq _ (by omega)
  have hp : p % 8 < 8 := Nat.mod_lt _ (by decide)
  have hpos : pos % 8 < 8 := Nat.mod_lt _ (by decide)
  rw [bitAt, bitAt, getD_modify_or _ (by omega), getD_modify_or _ hfit₁]
  -- the byte of `pos` takes its high bits, the next byte its low bits, the others nothing
  split_ifs with hnext hblock hblock
  · omega
  · rw [testBit_or, testBit_low hpos (by omega)]
    congr 1
    simp only [decide_eq_decide]
    omega
  · rw [testBit_or, testBit_high hpos (by omega)]
    congr 1
    simp only [decide_eq_decide]
    omega
  · simp only [Bool.eq_self_or, decide_eq_true_eq]
    omega

/-- `codeSegment` reads the mark back. -/
theorem codeSegment_eq {bits : Bitvec} {pos : Nat} (hfit : pos / 8 < bits.length) :
    bits.codeSegment pos = some (!bitAt bits pos) := by
  have hpos : pos % 8 < 8 := Nat.mod_lt _ (by decide)
  -- the mask has the one bit of `pos`
  have hmask : (bits.getD (pos / 8) 0 &&& (0x80 >>> UInt8.ofNat (pos % 8))) = 0 ↔
      (bits.getD (pos / 8) 0).toNat.testBit (7 - pos % 8) = false := by
    rw [← UInt8.toNat_inj, UInt8.toNat_and, bit_toNat hpos, Nat.and_two_pow]
    cases (bits.getD (pos / 8) 0).toNat.testBit (7 - pos % 8) <;> simp
  rw [codeSegment, if_pos hfit, bitAt]
  congr 1
  rw [Bool.eq_iff_iff, decide_eq_true_eq, hmask]
  simp

-- the bitmap is read as `Bitset.bitAt` reads it
theorem bitAt_replicate (n p : Nat) : bitAt (List.replicate n 0) p = false := Bitset.bitAt_replicate_zero n p

end Bitvec

open Bitvec

/-! ## The loops -/

/-- The first inner loop marks the positions of its whole groups of eight. -/
theorem set8Loop_bitAt (bits : Bitvec) (pc numbits : Nat) (hfit : (pc + numbits) / 8 < bits.length) :
    ∃ bits', set8Loop bits pc numbits = some (bits', pc + 8 * (numbits / 8), numbits % 8) ∧
      bits'.length = bits.length ∧
      ∀ p, bitAt bits' p = (bitAt bits p || decide (pc ≤ p ∧ p < pc + 8 * (numbits / 8))) := by
  induction bits, pc, numbits using set8Loop.induct with
  | case1 bits pc numbits hset =>
    obtain ⟨bits', h, -⟩ := @set8_bitAt bits pc (by omega)
    rw [h] at hset
    cases hset
  | case2 bits pc numbits bits₁ hset ih =>
    obtain ⟨bits', h, hlen₁, hbit₁⟩ := @set8_bitAt bits pc (by omega)
    rw [h] at hset
    cases hset
    obtain ⟨bits₂, h₂, hlen₂, hbit₂⟩ := ih (by rw [hlen₁]; omega)
    refine ⟨bits₂, ?_, hlen₂.trans hlen₁, fun p => ?_⟩
    · rw [set8Loop, h]
      dsimp only
      rw [h₂]
      congr 3 <;> omega
    · rw [hbit₂, hbit₁, Bool.or_assoc]
      congr 1
      rw [Bool.eq_iff_iff]
      simp only [Bool.or_eq_true, decide_eq_true_eq]
      omega
  | case3 bits pc numbits hlt =>
    have hsmall : numbits < 8 := by
      by_contra hge
      exact hlt (numbits - 8) (by omega)
    refine ⟨bits, ?_, rfl, fun p => ?_⟩
    · rw [set8Loop, Nat.div_eq_of_lt hsmall, Nat.mod_eq_of_lt hsmall]
      · rfl
      · exact hlt
    · rw [Nat.div_eq_of_lt hsmall]
      simp

/-- The second inner loop marks the positions it counts. -/
theorem setLoop_bitAt (bits : Bitvec) (pc numbits : Nat) (hfit : (pc + numbits) / 8 < bits.length) :
    ∃ bits', setLoop bits pc numbits = some (bits', pc + numbits) ∧ bits'.length = bits.length ∧
      ∀ p, bitAt bits' p = (bitAt bits p || decide (pc ≤ p ∧ p < pc + numbits)) := by
  induction bits, pc, numbits using setLoop.induct with
  | case1 bits pc => exact ⟨bits, rfl, rfl, fun p => by simp⟩
  | case2 bits pc numbits hset =>
    obtain ⟨bits', h, -⟩ := @set_bitAt bits pc (by omega)
    rw [h] at hset
    cases hset
  | case3 bits pc numbits bits₁ hset ih =>
    obtain ⟨bits', h, hlen₁, hbit₁⟩ := @set_bitAt bits pc (by omega)
    rw [h] at hset
    cases hset
    obtain ⟨bits₂, h₂, hlen₂, hbit₂⟩ := ih (by rw [hlen₁]; omega)
    refine ⟨bits₂, ?_, hlen₂.trans hlen₁, fun p => ?_⟩
    · rw [setLoop, h]
      dsimp only
      rw [h₂]
      congr 2
      omega
    · rw [hbit₂, hbit₁, Bool.or_assoc]
      congr 1
      rw [Bool.eq_iff_iff]
      simp only [Bool.or_eq_true, decide_eq_true_eq]
      omega

/-! ## The main loop -/

section Loop

variable {code : List UInt8} {bits : Bitvec} {pc : Nat}

theorem codeBitmapLoop_push (h : pc < code.length) (hpush : PUSH1 ≤ code[pc] ∧ code[pc] ≤ PUSH32)
    {bits₁ bits₂ : Bitvec} {pc₁ numbits₁ pc₂ : Nat}
    (h₁ : set8Loop bits (pc + 1) (code[pc] - PUSH1 + 1).toNat = some (bits₁, pc₁, numbits₁))
    (h₂ : setLoop bits₁ pc₁ numbits₁ = some (bits₂, pc₂)) :
    codeBitmapLoop code bits pc = codeBitmapLoop code bits₂ pc₂ := by
  rw [codeBitmapLoop, dif_pos h, if_pos hpush]
  dsimp only
  split
  · rename_i heq
    rw [h₁] at heq
    cases heq
  · rename_i b₁ p₁ n₁ heq
    rw [h₁] at heq
    cases heq
    split
    · rename_i heq₂
      rw [h₂] at heq₂
      cases heq₂
    · rename_i b₂ p₂ heq₂
      rw [h₂] at heq₂
      cases heq₂
      rfl

theorem codeBitmapLoop_op (h : pc < code.length) (hpush : ¬(PUSH1 ≤ code[pc] ∧ code[pc] ≤ PUSH32)) :
    codeBitmapLoop code bits pc = codeBitmapLoop code bits (pc + 1) := by
  rw [codeBitmapLoop, dif_pos h, if_neg hpush]

theorem codeBitmapLoop_end (h : ¬pc < code.length) : codeBitmapLoop code bits pc = some bits := by
  rw [codeBitmapLoop, dif_neg h]

/-- The data of a `PUSH` that starts in the code ends within the bitmap. -/
theorem push_fits (h : pc < code.length) : (pc + 1 + pushSize (code.getD pc 0)) / 8 < code.length / 8 + 1 + 4 := by
  have := pushSize_le (code.getD pc 0)
  omega

theorem pushSize_getD (h : pc < code.length) :
    pushSize (code.getD pc 0) = if PUSH1 ≤ code[pc] ∧ code[pc] ≤ PUSH32 then (code[pc] - PUSH1 + 1).toNat else 0 := by
  rw [pushSize, List.getD_eq_getElem _ _ h]

/-- The main loop from `pc`, over a bitmap of the size `codeBitmap` makes, adds to the marks exactly the data of the
decoding from `pc`. -/
theorem codeBitmapLoop_bitAt (hlen : bits.length = code.length / 8 + 1 + 4) :
    ∃ bits', codeBitmapLoop code bits pc = some bits' ∧ bits'.length = bits.length ∧
      ∀ p, (bitAt bits' p = true ↔ bitAt bits p = true ∨ IsPushDataFrom code pc p) := by
  induction bits, pc using codeBitmapLoop.induct code with
  | case1 bits pc h _ hpush _ hnone =>
    have hfit := push_fits h
    rw [pushSize_getD h, if_pos hpush] at hfit
    obtain ⟨_, hsome, -⟩ := set8Loop_bitAt bits (pc + 1) _ (by rw [hlen]; exact hfit)
    rw [hsome] at hnone
    cases hnone
  | case2 bits pc h _ hpush _ bits₁ pc₁ numbits₁ h₁ hnone =>
    have hfit := push_fits h
    rw [pushSize_getD h, if_pos hpush] at hfit
    obtain ⟨_, hsome, hlen₁, -⟩ := set8Loop_bitAt bits (pc + 1) _ (by rw [hlen]; exact hfit)
    rw [hsome] at h₁
    cases h₁
    obtain ⟨_, hsome₂, -⟩ := setLoop_bitAt bits₁ (pc + 1 + 8 * ((code[pc] - PUSH1 + 1).toNat / 8))
      ((code[pc] - PUSH1 + 1).toNat % 8) (by rw [hlen₁, hlen]; omega)
    rw [hsome₂] at hnone
    cases hnone
  | case3 bits pc h _ hpush _ bits₁ pc₁ numbits₁ h₁ bits₂ pc₂ h₂ ih =>
    have hfit := push_fits h
    have hsize := pushSize_getD h
    rw [if_pos hpush] at hsize
    rw [hsize] at hfit
    -- the two inner loops mark the data of this `PUSH`, eight at a time and then one at a time
    obtain ⟨bits₁', hsome, hlen₁, hbit₁⟩ := set8Loop_bitAt bits (pc + 1) _ (by rw [hlen]; exact hfit)
    rw [hsome] at h₁
    cases h₁
    obtain ⟨bits₂', hsome₂, hlen₂, hbit₂⟩ := setLoop_bitAt bits₁ (pc + 1 + 8 * ((code[pc] - PUSH1 + 1).toNat / 8))
      ((code[pc] - PUSH1 + 1).toNat % 8) (by rw [hlen₁, hlen]; omega)
    rw [hsome₂] at h₂
    cases h₂
    obtain ⟨bits', hloop, hlen', hbit'⟩ := ih (by rw [hlen₂, hlen₁, hlen])
    refine ⟨bits', (codeBitmapLoop_push h hpush hsome hsome₂).trans hloop, hlen'.trans (hlen₂.trans hlen₁),
      fun p => ?_⟩
    rw [hbit', hbit₂, hbit₁, @isPushDataFrom_iff code pc p, hsize]
    generalize (code[pc] - PUSH1 + 1).toNat = n
    have hnext : pc + 1 + 8 * (n / 8) + n % 8 = pc + 1 + n := by omega
    rw [hnext]
    simp only [Bool.or_eq_true, decide_eq_true_eq]
    constructor
    · rintro (((hold | hlo) | hhi) | hrest)
      · exact .inl hold
      · exact .inr ⟨h, .inl (by omega)⟩
      · exact .inr ⟨h, .inl (by omega)⟩
      · exact .inr ⟨h, .inr hrest⟩
    · rintro (hold | ⟨-, hdata | hrest⟩)
      · exact .inl (.inl (.inl hold))
      · by_cases hlow : p < pc + 1 + 8 * (n / 8)
        · exact .inl (.inl (.inr (by omega)))
        · exact .inl (.inr (by omega))
      · exact .inr hrest
  | case4 bits pc h _ hpush ih =>
    -- any other opcode is one byte, with no data
    obtain ⟨bits', hloop, hlen', hbit'⟩ := ih hlen
    have hsize := pushSize_getD h
    rw [if_neg hpush] at hsize
    refine ⟨bits', (codeBitmapLoop_op h hpush).trans hloop, hlen', fun p => ?_⟩
    rw [hbit', @isPushDataFrom_iff code pc p, hsize, Nat.add_zero]
    constructor
    · rintro (hold | hrest)
      · exact .inl hold
      · exact .inr ⟨h, .inr hrest⟩
    · rintro (hold | ⟨-, hdata | hrest⟩)
      · exact .inl hold
      · omega
      · exact .inr hrest
  | case5 bits pc h =>
    refine ⟨bits, codeBitmapLoop_end h, rfl, fun p => ?_⟩
    rw [isPushDataFrom_iff]
    simp [h]

end Loop

/-- `codeBitmap` returns a bitmap of `len(code) / 8 + 1 + 4` bytes, so no write falls outside it, which marks exactly
the data of the `PUSH`es of the linear decoding from 0. -/
theorem codeBitmap_bitAt (code : List UInt8) :
    ∃ bits, codeBitmap code = some bits ∧ bits.length = code.length / 8 + 1 + 4 ∧
      ∀ p, (bitAt bits p = true ↔ IsPushData code p) := by
  obtain ⟨bits, h, hlen, hbit⟩ := @codeBitmapLoop_bitAt code (List.replicate (code.length / 8 + 1 + 4) 0) 0
    (List.length_replicate ..)
  refine ⟨bits, h, by rw [hlen, List.length_replicate], fun p => ?_⟩
  rw [hbit, bitAt_replicate]
  simp [IsPushData]

/-- A code without `PUSH` has no data. -/
theorem not_isPushDataFrom {code : List UInt8} (hnone : ∀ q < code.length, pushSize (code.getD q 0) = 0) {pc p : Nat} :
    ¬IsPushDataFrom code pc p := by
  intro h
  induction h with
  | here h hlo hhi =>
    rw [hnone _ h] at hhi
    omega
  | later _ _ ih => exact ih

theorem codeSegment_of_codeBitmap {code : List UInt8} {bits : Bitvec} (h : codeBitmap code = some bits) {p : Nat}
    (hp : p < code.length) : bits.codeSegment p = some (!bitAt bits p) ∧ (bitAt bits p = true ↔ IsPushData code p) := by
  obtain ⟨bits', h', hlen, hbit⟩ := codeBitmap_bitAt code
  rw [h] at h'
  cases h'
  exact ⟨codeSegment_eq (by omega), hbit p⟩

/-! ## The caches of `validJumpdest` -/

/-- The analyses `validJumpdest` reads hold the bitmap of the contract's code: the parent's for the code hash, and the
contract's own. -/
structure AnalysisSound (c : Contract) : Prop where
  jumpdests : ∀ a, c.jumpdests c.codeHash = some a → codeBitmap c.code = some a
  analysis : ∀ a, c.analysis = some a → codeBitmap c.code = some a

/-- A new contract has nothing cached. -/
theorem AnalysisSound.fresh (code : List UInt8) (codeHash : BitVec 256) :
    AnalysisSound ⟨code, codeHash, fun _ => none, none⟩ :=
  ⟨fun _ h => by simp at h, fun _ h => by simp at h⟩

/-- `validJumpdest` answers from the bitmap of the code, whichever cache it takes it from, and keeps the caches sound.
Destinations of 63 bits or more are refused, so the answer is the bitmap's only for a code of at most `2 ^ 62` bytes. -/
theorem validJumpdest_spec {c : Contract} (hsound : AnalysisSound c) (hlen : c.code.length ≤ 2 ^ 62) (dest : Nat) :
    ∃ b c', c.validJumpdest dest = some (b, c') ∧
      (b = true ↔ dest < c.code.length ∧ c.code.getD dest 0 = JUMPDEST ∧ ¬IsPushData c.code dest) ∧
      AnalysisSound c' ∧ c'.code = c.code ∧ c'.codeHash = c.codeHash := by
  obtain ⟨bits, hbits, -, -⟩ := codeBitmap_bitAt c.code
  unfold Contract.validJumpdest
  dsimp only
  by_cases hfar : dest ≥ 2 ^ 62 ∨ dest % 2 ^ 64 ≥ c.code.length
  · rw [if_pos hfar]
    refine ⟨false, c, rfl, ?_, hsound, rfl, rfl⟩
    simp only [Bool.false_eq_true, false_iff, not_and]
    intro hd
    rw [Nat.mod_eq_of_lt (by omega)] at hfar
    omega
  rw [if_neg hfar]
  have hd : dest % 2 ^ 64 = dest := Nat.mod_eq_of_lt (by omega)
  have hdl : dest < c.code.length := by omega
  rw [hd]
  by_cases hj : c.code.getD dest 0 ≠ JUMPDEST
  · rw [if_pos hj]
    refine ⟨false, c, rfl, ?_, hsound, rfl, rfl⟩
    simp only [Bool.false_eq_true, false_iff, not_and]
    exact fun _ h => absurd h hj
  rw [if_neg hj]
  -- whichever cache it comes from, the bitmap is the code's
  obtain ⟨hseg, hbit⟩ := codeSegment_of_codeBitmap hbits hdl
  have hanswer : (!bitAt bits dest) = true ↔
      dest < c.code.length ∧ c.code.getD dest 0 = JUMPDEST ∧ ¬IsPushData c.code dest := by
    rw [ne_eq, not_not] at hj
    cases hb : bitAt bits dest
    · have hnot : ¬IsPushData c.code dest := fun hp => by
        rw [← hbit, hb] at hp
        cases hp
      simp only [Bool.not_false, true_iff]
      exact ⟨hdl, hj, hnot⟩
    · simp only [Bool.not_true, Bool.false_eq_true, false_iff, not_and]
      exact fun _ _ hnot => hnot (hbit.mp hb)
  split_ifs with hhash
  · split
    · rename_i a ha
      have ha' := hsound.jumpdests a ha
      rw [hbits] at ha'
      cases ha'
      exact ⟨_, c, by rw [hseg]; rfl, hanswer, hsound, rfl, rfl⟩
    · rw [hbits]
      refine ⟨_, { c with jumpdests := Function.update c.jumpdests c.codeHash (some bits) },
        by dsimp only; rw [hseg]; rfl, hanswer, ⟨fun a ha => ?_, hsound.analysis⟩, rfl, rfl⟩
      simp only [Function.update_self, Option.some.injEq] at ha
      rw [← ha]
      exact hbits
  · split
    · rename_i a ha
      have ha' := hsound.analysis a ha
      rw [hbits] at ha'
      cases ha'
      exact ⟨_, c, by rw [hseg]; rfl, hanswer, hsound, rfl, rfl⟩
    · rw [hbits]
      refine ⟨_, { c with analysis := some bits }, by dsimp only; rw [hseg]; rfl, hanswer,
        ⟨hsound.jumpdests, fun a ha => ?_⟩, rfl, rfl⟩
      simp only [Option.some.injEq] at ha
      rw [← ha]
      exact hbits

end Etherzero.Vm
