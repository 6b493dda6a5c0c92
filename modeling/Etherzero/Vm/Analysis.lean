import Mathlib

/-!
# JUMPDEST analysis (core/vm/analysis.go, contract.go)

`codeBitmap` marks the bytes of a contract's code that are the immediate data of a `PUSH1` .. `PUSH32`: bit
`7 - pos % 8` of byte `pos / 8` stands for the byte at `pos`. It walks the code from position 0, instruction by
instruction, marking a `PUSH`'s data eight positions at a time with `set8` and then one at a time with `set`. The
bitmap has 4 bytes more than the code needs, since the data of a `PUSH` at the end runs past the code. A write outside
the bitmap is Go's panic on an index out of range, which the model returns as `none`. `validJumpdest` accepts a
`JUMPDEST` that is not data; it takes the bitmap from the parent's map by code hash, or from the contract's own cache,
and computes it when neither has it.
-/

namespace Etherzero.Vm

/-- `PUSH1`. -/
def PUSH1 : UInt8 := 0x60

/-- `PUSH32`. -/
def PUSH32 : UInt8 := 0x7f

/-- `JUMPDEST`. -/
def JUMPDEST : UInt8 := 0x5b

/-- `bitvec`: a set bit means the byte is data. -/
abbrev Bitvec := List UInt8

namespace Bitvec

/-- `bits[i] |= m`, or the panic of an index out of range. -/
def orAt (bits : Bitvec) (i : Nat) (m : UInt8) : Option Bitvec :=
  if i < bits.length then some (bits.modify i (· ||| m)) else none

/-- `set`: mark the byte at `pos`. -/
def set (bits : Bitvec) (pos : Nat) : Option Bitvec :=
  bits.orAt (pos / 8) (0x80 >>> UInt8.ofNat (pos % 8))

/-- `set8`: mark the eight bytes from `pos`, the rest of its byte of the bitmap and the start of the next. -/
def set8 (bits : Bitvec) (pos : Nat) : Option Bitvec := do
  let bits ← bits.orAt (pos / 8) (0xFF >>> UInt8.ofNat (pos % 8))
  bits.orAt (pos / 8 + 1) (~~~(0xFF >>> UInt8.ofNat (pos % 8)))

/-- `codeSegment`: whether the byte at `pos` is not data. -/
def codeSegment (bits : Bitvec) (pos : Nat) : Option Bool :=
  if pos / 8 < bits.length then some ((bits.getD (pos / 8) 0 &&& (0x80 >>> UInt8.ofNat (pos % 8))) = 0) else none

end Bitvec

/-- The first inner loop of `codeBitmap`: `set8` while eight or more bytes of data are left. It returns the bitmap,
the position after the bytes marked, and the count left. -/
def set8Loop (bits : Bitvec) (pc : Nat) : (numbits : Nat) → Option (Bitvec × Nat × Nat)
  | numbits + 8 =>
    match bits.set8 pc with
    | none => none
    | some bits => set8Loop bits (pc + 8) numbits
  | numbits => some (bits, pc, numbits)

/-- The second inner loop: `set` for each byte of data left. -/
def setLoop (bits : Bitvec) (pc : Nat) : (numbits : Nat) → Option (Bitvec × Nat)
  | 0 => some (bits, pc)
  | numbits + 1 =>
    match bits.set pc with
    | none => none
    | some bits => setLoop bits (pc + 1) numbits

theorem set8Loop_pc {bits bits' : Bitvec} {pc pc' numbits numbits' : Nat}
    (h : set8Loop bits pc numbits = some (bits', pc', numbits')) : pc' = pc + 8 * (numbits / 8) := by
  induction bits, pc, numbits using set8Loop.induct generalizing bits' pc' numbits' with
  | case1 bits pc numbits hset =>
    rw [set8Loop, hset] at h
    cases h
  | case2 bits pc numbits bits₁ hset ih =>
    rw [set8Loop, hset] at h
    rw [ih h]
    omega
  | case3 bits pc numbits hlt =>
    rw [set8Loop] at h
    · cases h
      have : numbits < 8 := by
        by_contra hge
        exact hlt (numbits - 8) (by omega)
      simp [Nat.div_eq_of_lt this]
    · exact hlt

theorem setLoop_pc {bits bits' : Bitvec} {pc pc' numbits : Nat} (h : setLoop bits pc numbits = some (bits', pc')) :
    pc' = pc + numbits := by
  induction bits, pc, numbits using setLoop.induct generalizing bits' pc' with
  | case1 bits pc =>
    rw [setLoop] at h
    cases h
    rfl
  | case2 bits pc numbits hset =>
    rw [setLoop, hset] at h
    cases h
  | case3 bits pc numbits bits₁ hset ih =>
    rw [setLoop, hset] at h
    rw [ih h]
    omega

/-- The loop of `codeBitmap` from `pc`: a `PUSH` marks its data and the walk goes on after it; any other opcode is
one byte. -/
def codeBitmapLoop (code : List UInt8) (bits : Bitvec) (pc : Nat) : Option Bitvec :=
  if h : pc < code.length then
    let op := code[pc]
    if PUSH1 ≤ op ∧ op ≤ PUSH32 then
      let numbits := (op - PUSH1 + 1).toNat
      match h₁ : set8Loop bits (pc + 1) numbits with
      | none => none
      | some (bits₁, pc₁, numbits₁) =>
        match h₂ : setLoop bits₁ pc₁ numbits₁ with
        | none => none
        | some (bits₂, pc₂) => codeBitmapLoop code bits₂ pc₂
    else codeBitmapLoop code bits (pc + 1)
  else some bits
termination_by code.length - pc
decreasing_by
  · have := set8Loop_pc h₁
    have := setLoop_pc h₂
    omega
  · omega

/-- `codeBitmap`: the loop over a zero bitmap of `len(code) / 8 + 1 + 4` bytes. -/
def codeBitmap (code : List UInt8) : Option Bitvec :=
  codeBitmapLoop code (List.replicate (code.length / 8 + 1 + 4) 0) 0

/-- The fields of `Contract` that `validJumpdest` reads: the code and its hash, the parent's analyses by code hash,
and the contract's own. -/
structure Contract where
  code : List UInt8
  codeHash : BitVec 256
  jumpdests : BitVec 256 → Option Bitvec
  analysis : Option Bitvec

/-- `validJumpdest`: a destination of 63 bits or more, or past the code, or not at a `JUMPDEST`, is refused; otherwise
the bitmap decides, taken from the parent's analyses when the code hash is known and from the contract's own
otherwise, and computed and stored when it is missing. The contract is returned with its caches after the call. -/
def Contract.validJumpdest (c : Contract) (dest : Nat) : Option (Bool × Contract) :=
  let udest := dest % 2 ^ 64
  if dest ≥ 2 ^ 62 ∨ udest ≥ c.code.length then some (false, c)
  else if c.code.getD udest 0 ≠ JUMPDEST then some (false, c)
  else if c.codeHash ≠ 0 then
    match c.jumpdests c.codeHash with
    | some analysis => (analysis.codeSegment udest).map (·, c)
    | none =>
      match codeBitmap c.code with
      | none => none
      | some analysis =>
        (analysis.codeSegment udest).map
          (·, { c with jumpdests := Function.update c.jumpdests c.codeHash (some analysis) })
  else
    match c.analysis with
    | some analysis => (analysis.codeSegment udest).map (·, c)
    | none =>
      match codeBitmap c.code with
      | none => none
      | some analysis => (analysis.codeSegment udest).map (·, { c with analysis := some analysis })

end Etherzero.Vm
