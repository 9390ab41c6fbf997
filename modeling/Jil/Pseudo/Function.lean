/-
Jil.Pseudo.Function — functions over pseudo-registers.

What is known about a function once its statements are turned into instructions
and before its values have locations.
-/
import Jil.Pseudo.Instruction

namespace Jil.Pseudo

/-- A function over pseudo-registers. -/
structure Function where
  /-- The exported symbol, as it is spelled in assembly text. -/
  symbol : String
  code : List Instr
  /-- The label where the function ends: every return jumps there. -/
  exitLabel : String
  /-- Number of calls of services. -/
  serviceCalls : Nat
  deriving Repr

end Jil.Pseudo
